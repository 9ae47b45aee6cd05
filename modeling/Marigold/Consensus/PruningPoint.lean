import Marigold.Core.Hash
import Marigold.Lib.Epochs
import Marigold.Lib.Map

/-!
# Header pruning points

The pruning point of a block is the most recent pruning sample on its selected chain that lies at least the pruning
depth below it. The manager does not walk the chain: it follows the sample that each sample recorded, starting from
the one its selected parent recorded, and stops early in two further cases.

A blue score counts blocks, so the scores are natural numbers here.
-/

namespace Marigold.Consensus

open Lib

structure CompactGhostdagData where
  blueScore : Nat
  selectedParent : Hash

/-- The fields of a header that the manager reads. -/
structure PruningHeader where
  blueScore : Nat
  pruningPoint : Hash

structure PruningPointReply where
  pruningSample : Hash
  pruningPoint : Hash

structure PruningPointManager where
  pruningDepth : Nat
  finalityDepth : Nat
  genesisHash : Hash
  /-- The parent of genesis. -/
  origin : Hash
  headersStore : Map Hash PruningHeader
  ghostdagStore : Map Hash CompactGhostdagData
  pruningSamplesStore : Map Hash Hash

namespace PruningPointManager

variable (M : PruningPointManager)

/-- `div_ceil`. -/
def pruningSamplesSteps : Nat :=
  if 0 < M.pruningDepth % M.finalityDepth then M.pruningDepth / M.finalityDepth + 1
  else M.pruningDepth / M.finalityDepth

def getBlueScore (h : Hash) : Option Nat := (M.headersStore.lookup h).map PruningHeader.blueScore

def finalityScore (blueScore finalityDepth : Nat) : Nat := blueScore / finalityDepth

def isPruningSample (selfBlueScore epochChainAncestorBlueScore finalityDepth : Nat) : Bool :=
  finalityScore epochChainAncestorBlueScore finalityDepth < finalityScore selfBlueScore finalityDepth

/-- The loop over the samples. Nothing is left of a run that panics or does not end. -/
def findPruningPoint (blueScore : Nat) (isSelfPruningSample : Bool) (selectedParentPruningPoint : Hash) :
    (fuel steps : Nat) → (current : Hash) → Option Hash
  | 0, _, _ => none
  | fuel + 1, steps, current =>
    if current = M.genesisHash then some current
    else do
      let currentBlueScore ← M.getBlueScore current
      if currentBlueScore + M.pruningDepth ≤ blueScore then some current
      else if isSelfPruningSample ∧ steps = M.pruningSamplesSteps then some current
      else if current = selectedParentPruningPoint then some current
      else
        let current ← M.pruningSamplesStore.lookup current
        findPruningPoint blueScore isSelfPruningSample selectedParentPruningPoint fuel (steps + 1) current

/-- The most recent sample below a block. -/
def pruningSampleBelow (selectedParent : Hash) (selectedParentBlueScore : Nat) : Option Hash :=
  if selectedParent = M.genesisHash then some M.genesisHash
  else do
    let selectedParentPruningSample ← M.pruningSamplesStore.lookup selectedParent
    let selectedParentPruningSampleBlueScore ← M.getBlueScore selectedParentPruningSample
    if isPruningSample selectedParentBlueScore selectedParentPruningSampleBlueScore M.finalityDepth then
      some selectedParent
    else some selectedParentPruningSample

def expectedHeaderPruningPoint (fuel : Nat) (ghostdagData : CompactGhostdagData) : Option PruningPointReply := do
  let selectedParentBlueScore ← M.getBlueScore ghostdagData.selectedParent
  let pruningSample ← M.pruningSampleBelow ghostdagData.selectedParent selectedParentBlueScore
  let isSelfPruningSample := isPruningSample ghostdagData.blueScore selectedParentBlueScore M.finalityDepth
  let selectedParentHeader ← M.headersStore.lookup ghostdagData.selectedParent
  let pruningPoint ← M.findPruningPoint ghostdagData.blueScore isSelfPruningSample
    selectedParentHeader.pruningPoint fuel 1 pruningSample
  return ⟨pruningSample, pruningPoint⟩

/-- The loop of `next_pruning_points`. -/
def samplesBackTo (currentPruningPoint : Hash) :
    (fuel : Nat) → (current : Hash) → (deque : List Hash) → Option (List Hash)
  | 0, _, _ => none
  | fuel + 1, current, deque =>
    if current = currentPruningPoint then some deque
    else do
      let next ← M.pruningSamplesStore.lookup current
      samplesBackTo currentPruningPoint fuel next (current :: deque)

def nextPruningPoints (fuel : Nat) (sinkGhostdag : CompactGhostdagData) (currentPruningPoint : Hash) :
    Option (List Hash) :=
  if sinkGhostdag.selectedParent = M.origin then some []
  else do
    let currentPruningPointBlueScore ← M.getBlueScore currentPruningPoint
    if currentPruningPointBlueScore + M.pruningDepth > sinkGhostdag.blueScore then some []
    else
      let reply ← M.expectedHeaderPruningPoint fuel sinkGhostdag
      let sinkPruningPointBlueScore ← M.getBlueScore reply.pruningPoint
      if sinkPruningPointBlueScore ≤ currentPruningPointBlueScore then some []
      else M.samplesBackTo currentPruningPoint fuel reply.pruningPoint []

/-! ## The stores of a node -/

/-- The stores of a node that knows genesis only. -/
def initial (pruningDepth finalityDepth : Nat) (genesisHash origin genesisPruningPoint : Hash) :
    PruningPointManager where
  pruningDepth := pruningDepth
  finalityDepth := finalityDepth
  genesisHash := genesisHash
  origin := origin
  headersStore := (∅ : Map Hash PruningHeader).insert genesisHash ⟨0, genesisPruningPoint⟩
  ghostdagStore := (∅ : Map Hash CompactGhostdagData).insert genesisHash ⟨0, origin⟩
  pruningSamplesStore := ∅

/-- `insert` on a store that is append only, with the error of a present key ignored. -/
def insertSample (h sample : Hash) : PruningPointManager :=
  if (M.pruningSamplesStore.lookup h).isSome then M
  else { M with pruningSamplesStore := M.pruningSamplesStore.insert h sample }

/-- `verify_header_pruning_point`. -/
def verifyHeaderPruningPoint (fuel : Nat) (header : PruningHeader) (ghostdagData : CompactGhostdagData) :
    Option PruningPointReply := do
  let reply ← M.expectedHeaderPruningPoint fuel ghostdagData
  if reply.pruningPoint ≠ header.pruningPoint then none else some reply

/-- A header comes in with the blue score that GHOSTDAG gives it, or a block whose header is known qualifies for the
selected chain. -/
inductive Step (k : Nat) (M : PruningPointManager) : PruningPointManager → Prop where
  | header {h : Hash} {header parent : PruningHeader} {data : CompactGhostdagData}
      (new : M.headersStore.lookup h = none) (proper : h ≠ M.origin)
      (known : M.headersStore.lookup data.selectedParent = some parent) (score : header.blueScore = data.blueScore)
      (higher : parent.blueScore < data.blueScore) (step : data.blueScore ≤ parent.blueScore + k + 1) :
      Step k M { M with
        headersStore := M.headersStore.insert h header
        ghostdagStore := M.ghostdagStore.insert h data }
  | qualified {h : Hash} {header : PruningHeader} {data : CompactGhostdagData} {fuel : Nat} {reply : PruningPointReply}
      (stored : M.ghostdagStore.lookup h = some data) (known : M.headersStore.lookup h = some header)
      (verified : M.verifyHeaderPruningPoint fuel header data = some reply) :
      Step k M (M.insertSample h reply.pruningSample)

/-- From genesis, step by step. -/
inductive Reached (k : Nat) (pruningDepth finalityDepth : Nat) : PruningPointManager → Prop where
  | genesis {genesisHash origin genesisPruningPoint : Hash} (proper : genesisHash ≠ origin) :
      Reached k pruningDepth finalityDepth (initial pruningDepth finalityDepth genesisHash origin genesisPruningPoint)
  | next {M M' : PruningPointManager} (before : Reached k pruningDepth finalityDepth M) (step : M.Step k M') :
      Reached k pruningDepth finalityDepth M'

/-! ## What the answers should be -/

/-- The selected chain of a block with the blue scores, newest first. -/
inductive SelectedChain (M : PruningPointManager) : List (Hash × Nat) → Prop where
  | genesis : SelectedChain M [(M.genesisHash, 0)]
  | next {h selectedParent : Hash} {blueScore parentScore : Nat} {rest : List (Hash × Nat)}
      (below : SelectedChain M ((selectedParent, parentScore) :: rest)) (other : h ≠ M.genesisHash)
      (stored : M.ghostdagStore.lookup h = some ⟨blueScore, selectedParent⟩) :
      SelectedChain M ((h, blueScore) :: (selectedParent, parentScore) :: rest)

/-- The pruning samples of a chain, newest first. -/
def pruningSamples (chain : List (Hash × Nat)) : List (Hash × Nat) := samples Prod.snd M.finalityDepth chain

/-- The most recent sample at the pruning depth, or genesis. -/
structure IsPruningPoint (chain : List (Hash × Nat)) (blueScore : Nat) (point : Hash × Nat) : Prop where
  sample : point ∈ M.pruningSamples chain
  deep : point.2 + M.pruningDepth ≤ blueScore ∨ point = (M.genesisHash, 0)
  latest : ∀ other ∈ M.pruningSamples chain, other.2 + M.pruningDepth ≤ blueScore → other.2 ≤ point.2

/-- A block, or virtual, over a chain whose blocks qualified. -/
structure Pov (data : CompactGhostdagData) (parentScore : Nat) (rest : List (Hash × Nat)) : Prop where
  chain : M.SelectedChain ((data.selectedParent, parentScore) :: rest)
  qualified : data.selectedParent = M.genesisHash ∨ (M.pruningSamplesStore.lookup data.selectedParent).isSome
  higher : parentScore < data.blueScore

/-! ## The chains that qualified -/

section Processed

variable {M} {k : Nat} {chain rest : List (Hash × Nat)} {b : Hash × Nat}

/-- A chain whose blocks qualified, with what was recorded of each. -/
inductive Processed (k : Nat) (M : PruningPointManager) : List (Hash × Nat) → Prop where
  | genesis (score : M.getBlueScore M.genesisHash = some 0) : Processed k M [(M.genesisHash, 0)]
  | next {h selectedParent sample : Hash} {blueScore parentScore pointScore : Nat} {rest : List (Hash × Nat)}
      {header : PruningHeader} (below : Processed k M ((selectedParent, parentScore) :: rest))
      (other : h ≠ M.genesisHash) (stored : M.ghostdagStore.lookup h = some ⟨blueScore, selectedParent⟩)
      (known : M.headersStore.lookup h = some header) (score : header.blueScore = blueScore)
      (higher : parentScore < blueScore) (step : blueScore ≤ parentScore + k + 1)
      (sampled : M.pruningSamplesStore.lookup h = some sample)
      (newest : (M.pruningSamples ((selectedParent, parentScore) :: rest)).head?.map Prod.fst = some sample)
      (answer : M.IsPruningPoint ((selectedParent, parentScore) :: rest) blueScore (header.pruningPoint, pointScore)) :
      Processed k M ((h, blueScore) :: (selectedParent, parentScore) :: rest)

namespace Processed

theorem climb (processed : Processed k M chain) : Climb Prod.snd k (M.genesisHash, 0) chain := by
  induction processed with
  | genesis => exact .base rfl
  | next _ _ _ _ _ higher step _ _ _ ih => exact .next ih higher step

theorem scored (processed : Processed k M chain) : ∀ s ∈ chain, M.getBlueScore s.1 = some s.2 := by
  induction processed with
  | genesis score => exact List.forall_mem_singleton.mpr score
  | next _ _ _ known score _ _ _ _ _ ih =>
    refine List.forall_mem_cons.mpr ⟨?_, ih⟩
    rw [getBlueScore, known, Option.map_some, score]

/-- Following the recorded samples leads down the samples of the chain. -/
theorem linked (processed : Processed k M chain) :
    (M.pruningSamples chain).IsChain fun s s' => M.pruningSamplesStore.lookup s.1 = some s'.1 := by
  induction processed with
  | genesis => exact .singleton _
  | @next h selectedParent sample blueScore parentScore _ rest _ _ _ _ _ _ _ _ sampled newest _ ih =>
    rw [pruningSamples, samples]
    split
    · rw [pruningSamples] at newest ih
      cases below : samples Prod.snd M.finalityDepth ((selectedParent, parentScore) :: rest) with
      | nil => exact absurd below samples_ne_nil
      | cons s older =>
        rw [below] at newest ih
        refine .cons_cons ?_ ih
        rw [sampled]
        exact newest.symm
    · exact ih

theorem eq_of_selectedChain (processed : Processed k M (b :: rest)) {b' : Hash × Nat} {rest' : List (Hash × Nat)}
    (selected : M.SelectedChain (b' :: rest')) (same : b'.1 = b.1) : b' :: rest' = b :: rest := by
  generalize whole : b :: rest = chain at processed
  induction processed generalizing b rest b' rest' with
  | genesis =>
    cases whole
    cases selected with
    | genesis => rfl
    | next _ other _ => exact absurd same other
  | next _ other stored _ _ _ _ _ _ _ ih =>
    cases whole
    cases selected with
    | genesis => exact absurd same.symm other
    | next below _ stored' =>
      obtain rfl := same
      obtain ⟨rfl, rfl⟩ := CompactGhostdagData.mk.inj (Option.some.inj (stored'.symm.trans stored))
      rw [ih below (by rfl) rfl]

end Processed

end Processed

/-! ## The answers -/

section Answer

variable {M} {k fuel steps blueScore : Nat} {isSelf : Bool} {parentPoint : Hash} {s : Hash × Nat}
  {chain older rest : List (Hash × Nat)} {data : CompactGhostdagData} {fuel' : Nat} {reply : PruningPointReply}

/-- The samples of a chain as the loops meet them. -/
structure Trail (M : PruningPointManager) (list : List (Hash × Nat)) : Prop where
  linked : list.IsChain fun s s' => M.pruningSamplesStore.lookup s.1 = some s'.1
  sorted : list.Pairwise fun s s' => s'.2 < s.2
  scored : ∀ s ∈ list, M.getBlueScore s.1 = some s.2

theorem Trail.suffix (newer : List (Hash × Nat)) (trail : Trail M (newer ++ older)) : Trail M older :=
  ⟨trail.linked.right_of_append, (List.pairwise_append.mp trail.sorted).2.1,
    fun s member => trail.scored s (List.mem_append_right _ member)⟩

theorem Processed.trail (processed : Processed k M chain) : Trail M (M.pruningSamples chain) :=
  ⟨processed.linked, processed.climb.sorted.sublist samples_sublist,
    fun s member => processed.scored s (samples_sublist.subset member)⟩

/-- The loop stops at the most recent sample that is deep enough, or at genesis, when neither clamp can stop it
before. -/
theorem findPruningPoint_eq {list : List (Hash × Nat)} (trail : Trail M list) (base : (M.genesisHash, 0) ∈ list)
    (bySteps : isSelf = true → ∀ i s, list[i]? = some s → steps + i = M.pruningSamplesSteps →
      s.2 + M.pruningDepth ≤ blueScore ∨ s.1 = M.genesisHash)
    (byParent : ∀ s ∈ list, s.1 = parentPoint → s.2 + M.pruningDepth ≤ blueScore ∨ s.1 = M.genesisHash)
    (first : list.head? = some s) (enough : list.length ≤ fuel) :
    ∃ point ∈ list, M.findPruningPoint blueScore isSelf parentPoint fuel steps s.1 = some point.1 ∧
      (point.2 + M.pruningDepth ≤ blueScore ∨ point = (M.genesisHash, 0)) ∧
      ∀ other ∈ list, other.2 + M.pruningDepth ≤ blueScore → other.2 ≤ point.2 := by
  have genesisScore := trail.scored _ base
  induction list generalizing fuel steps s with
  | nil => cases base
  | cons newest older ih =>
    cases first
    obtain ⟨fuel, rfl⟩ : ∃ n, fuel = n + 1 := ⟨fuel - 1, by simp at enough; omega⟩
    have latest : ∀ other ∈ newest :: older, other.2 + M.pruningDepth ≤ blueScore → other.2 ≤ newest.2 := by
      intro other member _
      rcases List.mem_cons.mp member with rfl | below
      · exact Nat.le_refl _
      · exact (List.rel_of_pairwise_cons trail.sorted below).le
    have score := trail.scored newest List.mem_cons_self
    rw [findPruningPoint]
    split
    next atGenesis =>
      rw [atGenesis] at score
      have same : newest = (M.genesisHash, 0) :=
        Prod.ext atGenesis (Option.some.inj (score.symm.trans genesisScore))
      exact ⟨newest, List.mem_cons_self, rfl, .inr same, latest⟩
    next above =>
      rw [score, Option.bind_eq_bind, Option.bind_some]
      split
      next deep => exact ⟨newest, List.mem_cons_self, rfl, .inl deep, latest⟩
      next shallow =>
        have notSteps : ¬ (isSelf = true ∧ steps = M.pruningSamplesSteps) := by
          rintro ⟨self, reached⟩
          rcases bySteps self 0 newest rfl reached with deep | genesis
          · exact shallow deep
          · exact above genesis
        have notParent : newest.1 ≠ parentPoint := by
          intro same
          rcases byParent newest List.mem_cons_self same with deep | genesis
          · exact shallow deep
          · exact above genesis
        rw [if_neg notSteps, if_neg notParent]
        have baseOlder : (M.genesisHash, 0) ∈ older := by
          rcases List.mem_cons.mp base with same | below
          · exact absurd (congrArg Prod.fst same).symm above
          · exact below
        obtain ⟨next, tail, rfl⟩ := List.exists_cons_of_ne_nil (List.ne_nil_of_mem baseOlder)
        rw [(List.isChain_cons_cons.mp trail.linked).1, Option.bind_eq_bind, Option.bind_some]
        have later : isSelf = true → ∀ i s, (next :: tail)[i]? = some s → steps + 1 + i = M.pruningSamplesSteps →
            s.2 + M.pruningDepth ≤ blueScore ∨ s.1 = M.genesisHash :=
          fun self i s at_ reached => bySteps self (i + 1) s at_ (by omega)
        obtain ⟨point, member, found, deep, latest⟩ := ih (trail.suffix [newest]) baseOlder later
          (fun s member => byParent s (List.mem_cons_of_mem _ member)) rfl (by simpa using enough)
        refine ⟨point, List.mem_cons_of_mem _ member, found, deep, List.forall_mem_cons.mpr ⟨?_, latest⟩⟩
        exact fun deep => absurd deep shallow

theorem findPruningPoint_mono {point current : Hash}
    (found : M.findPruningPoint blueScore isSelf parentPoint fuel steps current = some point) (le : fuel ≤ fuel') :
    M.findPruningPoint blueScore isSelf parentPoint fuel' steps current = some point := by
  induction fuel generalizing fuel' steps current with
  | zero => cases found
  | succ fuel ih =>
    obtain ⟨fuel', rfl⟩ : ∃ n, fuel' = n + 1 := ⟨fuel' - 1, by omega⟩
    rw [findPruningPoint] at found ⊢
    split at found
    next atGenesis => rw [if_pos atGenesis, found]
    next above =>
      rw [if_neg above]
      obtain ⟨score, scored, found⟩ := Option.bind_eq_some_iff.mp found
      refine Option.bind_eq_some_iff.mpr ⟨score, scored, ?_⟩
      split at found
      next deep => rw [if_pos deep, found]
      next shallow =>
        rw [if_neg shallow]
        split at found
        next clamped => rw [if_pos clamped, found]
        next free =>
          rw [if_neg free]
          split at found
          next same => rw [if_pos same, found]
          next other =>
            rw [if_neg other]
            obtain ⟨next, link, found⟩ := Option.bind_eq_some_iff.mp found
            exact Option.bind_eq_some_iff.mpr ⟨next, link, ih found (by omega)⟩

theorem expectedHeaderPruningPoint_mono (done : M.expectedHeaderPruningPoint fuel data = some reply)
    (le : fuel ≤ fuel') : M.expectedHeaderPruningPoint fuel' data = some reply := by
  obtain ⟨score, scored, done⟩ := Option.bind_eq_some_iff.mp done
  obtain ⟨sample, below, done⟩ := Option.bind_eq_some_iff.mp done
  obtain ⟨header, known, done⟩ := Option.bind_eq_some_iff.mp done
  obtain ⟨point, found, done⟩ := Option.bind_eq_some_iff.mp done
  refine Option.bind_eq_some_iff.mpr ⟨score, scored, Option.bind_eq_some_iff.mpr ⟨sample, below, ?_⟩⟩
  exact Option.bind_eq_some_iff.mpr ⟨header, known, Option.bind_eq_some_iff.mpr
    ⟨point, findPruningPoint_mono found le, done⟩⟩

theorem pruningSampleBelow_eq (processed : Processed k M (s :: rest)) :
    M.pruningSampleBelow s.1 s.2 = (M.pruningSamples (s :: rest)).head?.map Prod.fst := by
  have scored := processed.scored
  cases processed with
  | genesis => simp [pruningSampleBelow, pruningSamples, samples]
  | @next h selectedParent sample score parentScore _ rest _ below other _ _ _ higher _ sampled newest _ =>
    rw [pruningSampleBelow, if_neg other, sampled, Option.bind_eq_bind, Option.bind_some, pruningSamples, samples]
    rw [pruningSamples] at newest
    cases list : samples Prod.snd M.finalityDepth ((selectedParent, parentScore) :: rest) with
    | nil => exact absurd list samples_ne_nil
    | cons first older =>
      rw [list] at newest
      cases newest
      -- the newest sample below is in the epoch of the selected parent
      have epoch := below.climb.samples_head list
      have member : first ∈ (selectedParent, parentScore) :: rest :=
        samples_sublist.subset (list ▸ List.mem_cons_self)
      rw [scored first (List.mem_cons_of_mem _ member), Option.bind_eq_bind, Option.bind_some, isPruningSample, finalityScore,
        finalityScore, epoch]
      by_cases later : parentScore / M.finalityDepth < score / M.finalityDepth <;> simp [later]

/-- The condition on the depths: the pruning depth is not close to a multiple of the finality depth. -/
structure Spaced (k : Nat) (M : PruningPointManager) : Prop where
  after : k < M.pruningDepth % M.finalityDepth
  before : M.pruningDepth % M.finalityDepth < M.finalityDepth - k

/-- A sample finds a deep sample in as many steps as the clamp allows. -/
theorem Spaced.deep (spaced : Spaced k M) {parent : Hash × Nat}
    (climb : Climb Prod.snd k (M.genesisHash, 0) (parent :: rest))
    (self : parent.2 / M.finalityDepth < blueScore / M.finalityDepth)
    {i : Nat} (at_ : (M.pruningSamples (parent :: rest))[i]? = some s)
    (reached : 1 + i = M.pruningSamplesSteps) : s.2 + M.pruningDepth ≤ blueScore := by
  obtain ⟨after, before⟩ := spaced
  have short : k < M.finalityDepth := by omega
  have close := climb.samples_mod_le short s (List.mem_of_getElem? at_)
  have epoch := climb.samples_epoch short at_
  rw [pruningSamplesSteps, if_pos (by omega)] at reached
  obtain rfl : i = M.pruningDepth / M.finalityDepth := by omega
  -- the sample is `P / F` epochs below the parent, and what is left of `P` fits into the epoch of the parent
  have product : M.finalityDepth * (s.2 / M.finalityDepth) +
      M.finalityDepth * (M.pruningDepth / M.finalityDepth) = M.finalityDepth * (parent.2 / M.finalityDepth) := by
    rw [← Nat.mul_add, epoch]
  have reaches : M.finalityDepth * (parent.2 / M.finalityDepth + 1) ≤ blueScore := by
    rw [Nat.mul_comm]
    exact (Nat.le_div_iff_mul_le (by omega)).mp self
  have ofSample := Nat.div_add_mod s.2 M.finalityDepth
  have ofDepth := Nat.div_add_mod M.pruningDepth M.finalityDepth
  rw [Nat.mul_add, Nat.mul_one] at reaches
  omega

/-- The pruning point of a qualified block is deep for that block already. -/
theorem Processed.point_deep (processed : Processed k M (s :: rest)) {header : PruningHeader}
    (known : M.headersStore.lookup s.1 = some header) {point : Hash × Nat}
    (member : point ∈ M.pruningSamples (s :: rest)) (same : point.1 = header.pruningPoint) :
    point.2 + M.pruningDepth ≤ s.2 ∨ point.1 = M.genesisHash := by
  have scored := processed.scored
  cases processed with
  | genesis =>
    obtain rfl := List.mem_singleton.mp (samples_sublist.subset member)
    exact .inr rfl
  | @next _ _ _ _ _ pointScore _ header' below _ _ known' _ _ _ _ _ answer =>
    cases known.symm.trans known'
    have score := below.scored _ (samples_sublist.subset answer.sample)
    have score' := scored point (samples_sublist.subset member)
    rw [same, score] at score'
    obtain rfl : point = (header.pruningPoint, pointScore) := Prod.ext same (Option.some.inj score').symm
    rcases answer.deep with deep | genesis
    · exact .inl deep
    · exact .inr (congrArg Prod.fst genesis)

theorem Processed.expected (processed : Processed k M (s :: rest)) (spaced : Spaced k M) (parent : data.selectedParent = s.1)
    (higher : s.2 < data.blueScore) : ∃ sample point, (M.pruningSamples (s :: rest)).head? = some sample ∧
      M.IsPruningPoint (s :: rest) data.blueScore point ∧
      ∀ fuel, rest.length < fuel → M.expectedHeaderPruningPoint fuel data = some ⟨sample.1, point.1⟩ := by
  obtain ⟨blueScore, _⟩ := data
  obtain rfl := parent
  have scored := processed.scored _ List.mem_cons_self
  have below := pruningSampleBelow_eq processed
  obtain ⟨sample, newest⟩ : ∃ sample, (M.pruningSamples (s :: rest)).head? = some sample :=
    ⟨_, List.head?_eq_some_head samples_ne_nil⟩
  obtain ⟨header, known, score⟩ := Option.map_eq_some_iff.mp scored
  have byParent : ∀ s' ∈ M.pruningSamples (s :: rest), s'.1 = header.pruningPoint →
      s'.2 + M.pruningDepth ≤ blueScore ∨ s'.1 = M.genesisHash := by
    intro s member same
    rcases processed.point_deep known member same with deep | genesis
    · exact .inl (deep.trans higher.le)
    · exact .inr genesis
  have bySteps : isPruningSample blueScore s.2 M.finalityDepth = true → ∀ i s',
      (M.pruningSamples (s :: rest))[i]? = some s' → 1 + i = M.pruningSamplesSteps →
      s'.2 + M.pruningDepth ≤ blueScore ∨ s'.1 = M.genesisHash :=
    fun self i s at_ reached => .inl (spaced.deep processed.climb (of_decide_eq_true self) at_ reached)
  obtain ⟨point, member, found, deep, latest⟩ := findPruningPoint_eq processed.trail processed.climb.base_mem_samples
    bySteps byParent newest samples_sublist.length_le
  -- the answer does not depend on the fuel
  refine ⟨sample, point, newest, ⟨member, deep, latest⟩, fun fuel enough => expectedHeaderPruningPoint_mono ?_ enough⟩
  simp only [newest, Option.map_some] at below
  rw [List.length_cons] at found
  simp [expectedHeaderPruningPoint, scored, below, known, found]

end Answer

/-! ## Every reached state -/

section Reached

variable {M M' : PruningPointManager} {k parentScore : Nat} {chain rest : List (Hash × Nat)}
  {data : CompactGhostdagData} {blueScore fuel fuel' P F : Nat} {reply : PruningPointReply} {h sample : Hash}
  {point current : Hash × Nat}

/-- The stores of `M'` hold what those of `M` hold. -/
structure Grows (M M' : PruningPointManager) : Prop where
  pruningDepth : M'.pruningDepth = M.pruningDepth
  finalityDepth : M'.finalityDepth = M.finalityDepth
  genesisHash : M'.genesisHash = M.genesisHash
  headers : ∀ h header, M.headersStore.lookup h = some header → M'.headersStore.lookup h = some header
  ghostdag : ∀ h data, M.ghostdagStore.lookup h = some data → M'.ghostdagStore.lookup h = some data
  samples : ∀ h sample, M.pruningSamplesStore.lookup h = some sample → M'.pruningSamplesStore.lookup h = some sample

theorem Grows.getBlueScore (grows : Grows M M') {score : Nat} (scored : M.getBlueScore h = some score) :
    M'.getBlueScore h = some score := by
  obtain ⟨header, known, rfl⟩ := Option.map_eq_some_iff.mp scored
  exact Option.map_eq_some_iff.mpr ⟨header, grows.headers h header known, rfl⟩

theorem Grows.pruningSamples_eq (grows : Grows M M') : M'.pruningSamples chain = M.pruningSamples chain := by
  rw [pruningSamples, pruningSamples, grows.finalityDepth]

theorem Grows.isPruningPoint (grows : Grows M M') (answer : M.IsPruningPoint chain blueScore point) :
    M'.IsPruningPoint chain blueScore point := by
  obtain ⟨sample, deep, latest⟩ := answer
  rw [← grows.pruningSamples_eq] at sample latest
  rw [← grows.pruningDepth] at deep latest
  rw [← grows.genesisHash] at deep
  exact ⟨sample, deep, latest⟩

theorem Processed.grows (processed : Processed k M chain) (grows : Grows M M') : Processed k M' chain := by
  induction processed with
  | genesis score =>
    rw [← grows.genesisHash] at score ⊢
    exact .genesis (grows.getBlueScore (grows.genesisHash ▸ score))
  | next _ other stored known score higher step sampled newest answer ih =>
    exact .next ih (grows.genesisHash ▸ other) (grows.ghostdag _ _ stored) (grows.headers _ _ known) score higher step
      (grows.samples _ _ sampled) (grows.pruningSamples_eq ▸ newest) (grows.isPruningPoint answer)

/-- What holds of the stores. -/
structure Sound (k : Nat) (M : PruningPointManager) : Prop where
  genesis : M.getBlueScore M.genesisHash = some 0
  origin : M.headersStore.lookup M.origin = none
  root : M.ghostdagStore.lookup M.genesisHash = some ⟨0, M.origin⟩
  stored : ∀ h data, M.ghostdagStore.lookup h = some data → h ≠ M.genesisHash →
    M.getBlueScore h = some data.blueScore ∧ ∃ parentScore, M.getBlueScore data.selectedParent = some parentScore ∧
      parentScore < data.blueScore ∧ data.blueScore ≤ parentScore + k + 1
  processed : ∀ h, (M.pruningSamplesStore.lookup h).isSome → ∃ score rest, Processed k M ((h, score) :: rest)

theorem Sound.known (sound : Sound k M) (stored : M.ghostdagStore.lookup h = some data) :
    M.getBlueScore h = some data.blueScore := by
  by_cases root : h = M.genesisHash
  · subst root
    rw [sound.genesis, ← Option.some.inj (sound.root.symm.trans stored)]
  · exact (sound.stored h data stored root).1

theorem Sound.below (sound : Sound k M)
    (qualified : data.selectedParent = M.genesisHash ∨ (M.pruningSamplesStore.lookup data.selectedParent).isSome) :
    ∃ score rest, Processed k M ((data.selectedParent, score) :: rest) := by
  rcases qualified with root | sampled
  · rw [root]
    exact ⟨0, [], .genesis sound.genesis⟩
  · exact sound.processed _ sampled

theorem qualified_of_expected (done : M.expectedHeaderPruningPoint fuel data = some reply) :
    data.selectedParent = M.genesisHash ∨ (M.pruningSamplesStore.lookup data.selectedParent).isSome := by
  obtain ⟨score, -, done⟩ := Option.bind_eq_some_iff.mp done
  obtain ⟨sample, below, -⟩ := Option.bind_eq_some_iff.mp done
  rw [pruningSampleBelow] at below
  split at below
  next root => exact .inl root
  · obtain ⟨sample, there, -⟩ := Option.bind_eq_some_iff.mp below
    exact .inr (there ▸ rfl)

theorem Sound.initial {genesisHash origin point : Hash} (proper : genesisHash ≠ origin) :
    Sound k (initial P F genesisHash origin point) where
  genesis := by simp only [getBlueScore, PruningPointManager.initial, Map.lookup_insert_eq, if_true, Option.map_some]
  origin := by
    simp only [PruningPointManager.initial, Map.lookup_insert_eq, if_neg proper.symm, AList.lookup_empty]
  root := by simp only [PruningPointManager.initial, Map.lookup_insert_eq, if_true]
  stored h data stored other := by
    simp only [PruningPointManager.initial, Map.lookup_insert_eq, AList.lookup_empty] at stored other
    rw [if_neg other] at stored
    cases stored
  processed h sampled := by cases sampled

theorem Sound.header (sound : Sound k M) {header parent : PruningHeader} (new : M.headersStore.lookup h = none)
    (proper : h ≠ M.origin) (known : M.headersStore.lookup data.selectedParent = some parent)
    (score : header.blueScore = data.blueScore) (higher : parent.blueScore < data.blueScore)
    (step : data.blueScore ≤ parent.blueScore + k + 1) : Sound k { M with
      headersStore := M.headersStore.insert h header, ghostdagStore := M.ghostdagStore.insert h data } := by
  have unscored : M.getBlueScore h = none := by rw [getBlueScore, new, Option.map_none]
  have unstored : M.ghostdagStore.lookup h = none := by
    by_contra some
    obtain ⟨data', stored⟩ := Option.ne_none_iff_exists'.mp some
    exact nomatch unscored.symm.trans (sound.known stored)
  have grows : Grows M { M with
      headersStore := M.headersStore.insert h header, ghostdagStore := M.ghostdagStore.insert h data } :=
    ⟨rfl, rfl, rfl, fun _ _ there => Map.lookup_insert_of_new new there,
      fun _ _ there => Map.lookup_insert_of_new unstored there, fun _ _ there => there⟩
  have scores : ∀ {h' : Hash} {n : Nat}, M.getBlueScore h' = some n → _ := fun scored => grows.getBlueScore scored
  refine ⟨scores sound.genesis, ?_, grows.ghostdag _ _ sound.root, fun h' data' stored other => ?_,
    fun h' sampled => ?_⟩
  · rw [Map.lookup_insert_eq, if_neg proper.symm]
    exact sound.origin
  · rw [Map.lookup_insert_eq] at stored
    split at stored
    next same =>
      cases stored
      refine ⟨?_, parent.blueScore, scores ?_, higher, step⟩
      · rw [getBlueScore, Map.lookup_insert_eq, if_pos same, Option.map_some, score]
      · rw [getBlueScore, known, Option.map_some]
    · obtain ⟨scored, parentScore, parentScored, bounds⟩ := sound.stored h' data' stored other
      exact ⟨scores scored, parentScore, scores parentScored, bounds⟩
  · obtain ⟨score, rest, processed⟩ := sound.processed h' sampled
    exact ⟨score, rest, processed.grows grows⟩

theorem grows_insertSample : Grows M (M.insertSample h sample) := by
  rw [insertSample]
  split
  · exact ⟨rfl, rfl, rfl, fun _ _ there => there, fun _ _ there => there, fun _ _ there => there⟩
  next absent =>
    exact ⟨rfl, rfl, rfl, fun _ _ there => there, fun _ _ there => there,
      fun _ _ there => Map.lookup_insert_of_new (Option.not_isSome_iff_eq_none.mp absent) there⟩

theorem Sound.qualified (sound : Sound k M) (spaced : Spaced k M) {header : PruningHeader}
    (stored : M.ghostdagStore.lookup h = some data) (known : M.headersStore.lookup h = some header)
    (verified : M.verifyHeaderPruningPoint fuel header data = some reply) :
    Sound k (M.insertSample h reply.pruningSample) := by
  by_cases again : (M.pruningSamplesStore.lookup h).isSome
  · rw [insertSample, if_pos again]
    exact sound
  have grows : Grows M (M.insertSample h reply.pruningSample) := grows_insertSample
  have same : M.insertSample h reply.pruningSample =
      { M with pruningSamplesStore := M.pruningSamplesStore.insert h reply.pruningSample } := by
    rw [insertSample, if_neg again]
  obtain ⟨expected, done, point⟩ := Option.bind_eq_some_iff.mp verified
  obtain ⟨equal, rfl⟩ : reply.pruningPoint = header.pruningPoint ∧ expected = reply := by
    split at point
    · cases point
    next equal =>
      cases point
      exact ⟨not_not.mp equal, rfl⟩
  obtain ⟨parentScore, rest, below⟩ := sound.below (qualified_of_expected done)
  have other : h ≠ M.genesisHash := by
    rintro rfl
    cases sound.root.symm.trans stored
    obtain ⟨score, scored, -⟩ := Option.bind_eq_some_iff.mp done
    rw [getBlueScore, sound.origin] at scored
    cases scored
  obtain ⟨score, parentScore', parentScored, higher, step⟩ := sound.stored h data stored other
  obtain rfl := Option.some.inj ((below.scored _ List.mem_cons_self).symm.trans parentScored)
  obtain ⟨sample, answer, newest, isPoint, answered⟩ := below.expected spaced rfl higher
  have more := expectedHeaderPruningPoint_mono done (Nat.le_add_right fuel (rest.length + 1))
  obtain ⟨ofSample, ofPoint⟩ :=
    PruningPointReply.mk.inj (Option.some.inj ((answered _ (Nat.le_add_left _ fuel)).symm.trans more))
  have isHeaders : M.IsPruningPoint ((data.selectedParent, parentScore) :: rest) data.blueScore
      (header.pruningPoint, answer.2) := by
    rw [← equal, ← ofPoint]
    exact isPoint
  have inserted : (M.insertSample h expected.pruningSample).pruningSamplesStore.lookup h =
      some expected.pruningSample := by rw [same, AList.lookup_insert]
  have processed : Processed k (M.insertSample h expected.pruningSample)
      ((h, data.blueScore) :: (data.selectedParent, parentScore) :: rest) := by
    refine .next (below.grows grows) (grows.genesisHash ▸ other) (grows.ghostdag _ _ stored)
      (grows.headers _ _ known) ?_ higher step inserted ?_ (grows.isPruningPoint isHeaders)
    · rw [getBlueScore, known] at score
      exact Option.some.inj score
    · rw [grows.pruningSamples_eq, newest, Option.map_some, ofSample]
  rw [same] at processed grows ⊢
  refine ⟨sound.genesis, sound.origin, sound.root, sound.stored, fun h' sampled => ?_⟩
  rw [Map.lookup_insert_eq] at sampled
  split at sampled
  next here =>
    rw [here]
    exact ⟨_, _, processed⟩
  · obtain ⟨score, rest, before⟩ := sound.processed h' sampled
    exact ⟨score, rest, before.grows grows⟩

theorem Reached.params (reached : Reached k P F M) : M.pruningDepth = P ∧ M.finalityDepth = F := by
  induction reached with
  | genesis => exact ⟨rfl, rfl⟩
  | next _ step ih =>
    cases step with
    | header => exact ih
    | qualified => exact ⟨grows_insertSample.pruningDepth.trans ih.1, grows_insertSample.finalityDepth.trans ih.2⟩

theorem Reached.sound (reached : Reached k P F M) (after : k < P % F) (before : P % F < F - k) :
    Spaced k M ∧ Sound k M := by
  have spaced : ∀ {M : PruningPointManager}, Reached k P F M → Spaced k M := by
    intro M reached
    obtain ⟨rfl, rfl⟩ := reached.params
    exact ⟨after, before⟩
  refine ⟨spaced reached, ?_⟩
  induction reached with
  | genesis proper => exact .initial proper
  | next reached step ih =>
    cases step with
    | header new proper known score higher step => exact ih.header new proper known score higher step
    | qualified stored known verified => exact ih.qualified (spaced reached) stored known verified

/-- The loop of `next_pruning_points` collects the samples above the one it stops at. -/
theorem samplesBackTo_eq {list : List (Hash × Nat)} {s : Hash × Nat} {deque : List Hash} (trail : Trail M list)
    (member : current ∈ list) (first : list.head? = some s) (enough : list.length ≤ fuel) :
    M.samplesBackTo current.1 fuel s.1 deque =
      some (((list.filter fun s => current.2 < s.2).map Prod.fst).reverse ++ deque) := by
  induction list generalizing fuel s deque with
  | nil => cases member
  | cons newest older ih =>
    cases first
    obtain ⟨fuel, rfl⟩ : ∃ n, fuel = n + 1 := ⟨fuel - 1, by simp at enough; omega⟩
    have lower := (List.pairwise_cons.mp trail.sorted).1
    rw [samplesBackTo]
    split
    next same =>
      have score := trail.scored newest List.mem_cons_self
      rw [same, trail.scored current member] at score
      have none : (newest :: older).filter (fun s => current.2 < s.2) = [] := by
        refine List.filter_eq_nil_iff.mpr (List.forall_mem_cons.mpr ⟨?_, fun other below => ?_⟩)
        · simp [Option.some.inj score]
        · have := lower other below
          simp [Option.some.inj score, this.le]
      rw [none]
      rfl
    next differ =>
      have below : current ∈ older := by
        rcases List.mem_cons.mp member with same | below
        · exact absurd (congrArg Prod.fst same).symm differ
        · exact below
      obtain ⟨next, tail, rfl⟩ := List.exists_cons_of_ne_nil (List.ne_nil_of_mem below)
      rw [(List.isChain_cons_cons.mp trail.linked).1, Option.bind_eq_bind, Option.bind_some,
        ih (trail.suffix [newest]) below rfl (by simpa using enough)]
      rw [List.filter_cons_of_pos (a := newest) (by simpa using lower current below)]
      simp

theorem Pov.processed (pov : M.Pov data parentScore rest) (sound : Sound k M) :
    Processed k M ((data.selectedParent, parentScore) :: rest) := by
  obtain ⟨score, rest', processed⟩ := sound.below pov.qualified
  rw [processed.eq_of_selectedChain pov.chain rfl]
  exact processed

theorem IsPruningPoint.le {blueScore' : Nat} {point' b : Hash × Nat} (before : M.IsPruningPoint chain blueScore point)
    (after : M.IsPruningPoint (b :: chain) blueScore' point') (le : blueScore ≤ blueScore') : point.2 ≤ point'.2 := by
  rcases before.deep with deep | genesis
  · refine after.latest point ?_ (deep.trans le)
    cases chain with
    | nil => cases before.sample
    | cons p rest =>
      rw [pruningSamples, samples]
      split
      · exact .tail _ before.sample
      · exact before.sample
  · simp [genesis]

theorem Processed.samplesBackTo_point (processed : Processed k M chain) (inside : current ∈ M.pruningSamples chain)
    (sample : point ∈ M.pruningSamples chain) (above : current.2 < point.2) (enough : chain.length ≤ fuel) :
    M.samplesBackTo current.1 fuel point.1 [] =
      some (((M.pruningSamples chain).filter fun s => current.2 < s.2 ∧ s.2 ≤ point.2).map Prod.fst).reverse := by
  have trail := processed.trail
  have short : (M.pruningSamples chain).length ≤ fuel := samples_sublist.length_le.trans enough
  obtain ⟨newer, older, split⟩ := List.append_of_mem sample
  rw [split] at trail inside short ⊢
  obtain ⟨-, sortedOlder, crossed⟩ := List.pairwise_append.mp trail.sorted
  have higher : ∀ s ∈ newer, point.2 < s.2 := fun s member => crossed s member point List.mem_cons_self
  have below : current ∈ point :: older := by
    rcases List.mem_append.mp inside with inNewer | below
    · have := higher current inNewer
      omega
    · exact below
  have collected : M.samplesBackTo current.1 fuel point.1 [] = some (_ ++ []) :=
    samplesBackTo_eq (trail.suffix newer) below rfl ((List.length_append ▸ Nat.le_add_left _ _).trans short)
  -- of the samples the filter keeps none above the point, and looks at the lower bound only below it
  have none : newer.filter (fun s => decide (current.2 < s.2 ∧ s.2 ≤ point.2)) = [] := by
    refine List.filter_eq_nil_iff.mpr fun s member => ?_
    have := higher s member
    simp only [decide_eq_true_eq]
    omega
  have same : (point :: older).filter (fun s => decide (current.2 < s.2 ∧ s.2 ≤ point.2)) =
      (point :: older).filter fun s => decide (current.2 < s.2) := by
    refine List.filter_congr fun s member => decide_eq_decide.mpr (and_iff_left ?_)
    rcases List.mem_cons.mp member with rfl | lower
    · exact Nat.le_refl _
    · exact (List.rel_of_pairwise_cons sortedOlder lower).le
  rw [collected, List.append_nil, List.filter_append, none, List.nil_append, same]

theorem Processed.nextPruningPoints_eq (processed : Processed k M chain) (deep : 0 < M.pruningDepth)
    (notRoot : data.selectedParent ≠ M.origin) (scored : M.getBlueScore current.1 = some current.2)
    (onChain : current ∈ M.pruningSamples chain ∨ data.blueScore ≤ current.2)
    (answer : M.IsPruningPoint chain data.blueScore point)
    (expected : M.expectedHeaderPruningPoint fuel data = some ⟨sample, point.1⟩) (enough : chain.length ≤ fuel) :
    M.nextPruningPoints fuel data current.1 = some (((M.pruningSamples chain).filter
      fun s => current.2 < s.2 ∧ s.2 ≤ point.2).map Prod.fst).reverse := by
  have empty : point.2 ≤ current.2 → some [] = some (((M.pruningSamples chain).filter
      fun s => current.2 < s.2 ∧ s.2 ≤ point.2).map Prod.fst).reverse := by
    intro le
    have none : (M.pruningSamples chain).filter (fun s => decide (current.2 < s.2 ∧ s.2 ≤ point.2)) = [] := by
      refine List.filter_eq_nil_iff.mpr fun s member => ?_
      simp only [decide_eq_true_eq]
      omega
    rw [none]
    rfl
  rw [nextPruningPoints, if_neg notRoot, scored, Option.bind_eq_bind, Option.bind_some]
  split
  next shallow =>
    refine empty ?_
    rcases answer.deep with deep | genesis
    · omega
    · simp [genesis]
  next far =>
    have inside : current ∈ M.pruningSamples chain := by
      rcases onChain with inside | sink
      · exact inside
      · omega
    rw [expected, Option.bind_eq_bind, Option.bind_some,
      processed.scored point (samples_sublist.subset answer.sample), Option.bind_some]
    split
    next le => exact empty le
    next above => exact processed.samplesBackTo_point inside answer.sample (not_le.mp above) enough

/-- When the pruning depth is not close to a multiple of the finality depth, then in every reached state the answer at
a block of a qualified chain is the most recent sample at the pruning depth, or genesis; it does not move back from a
block to its child; and the next pruning points are the samples after the current one up to that of the sink. -/
theorem expectedHeaderPruningPoint_most_recent {P F : Nat} (reached : Reached k P F M) (after : k < P % F)
    (before : P % F < F - k) :
    (∀ data parentScore rest, M.Pov data parentScore rest →
      ∃ sample point, (M.pruningSamples ((data.selectedParent, parentScore) :: rest)).head? = some sample ∧
        M.IsPruningPoint ((data.selectedParent, parentScore) :: rest) data.blueScore point ∧
        ∀ fuel, rest.length < fuel → M.expectedHeaderPruningPoint fuel data = some ⟨sample.1, point.1⟩) ∧
    (∀ data child parentScore rest, M.Pov data parentScore rest →
      M.Pov child data.blueScore ((data.selectedParent, parentScore) :: rest) →
      ∃ reply reply' score score', (∀ fuel, rest.length + 1 < fuel →
        M.expectedHeaderPruningPoint fuel data = some reply ∧ M.expectedHeaderPruningPoint fuel child = some reply') ∧
        M.getBlueScore reply.pruningPoint = some score ∧ M.getBlueScore reply'.pruningPoint = some score' ∧
        score ≤ score') ∧
    (∀ sink data parentScore rest current, M.ghostdagStore.lookup sink = some data → M.Pov data parentScore rest →
      current ∈ M.pruningSamples ((sink, data.blueScore) :: (data.selectedParent, parentScore) :: rest) →
      ∃ point, M.IsPruningPoint ((data.selectedParent, parentScore) :: rest) data.blueScore point ∧
        ∀ fuel, rest.length < fuel → M.nextPruningPoints fuel data current.1 =
          some (((M.pruningSamples ((data.selectedParent, parentScore) :: rest)).filter
            fun s => current.2 < s.2 ∧ s.2 ≤ point.2).map Prod.fst).reverse) ∧
    ∀ data current fuel, M.ghostdagStore.lookup M.genesisHash = some data →
      M.nextPruningPoints fuel data current = some [] := by
  obtain ⟨spaced, sound⟩ := reached.sound after before
  have positive : 0 < M.pruningDepth := by
    obtain ⟨rfl, rfl⟩ := reached.params
    exact Nat.pos_of_ne_zero fun zero => by simp [zero] at after
  refine ⟨fun data parentScore rest pov => (pov.processed sound).expected spaced rfl pov.higher,
    fun data child parentScore rest pov pov' => ?_,
    fun sink data parentScore rest current stored pov member => ?_, fun data current fuel stored => ?_⟩
  · have processed := pov.processed sound
    have processed' := pov'.processed sound
    obtain ⟨sample, point, -, answer, done⟩ := processed.expected spaced rfl pov.higher
    obtain ⟨sample', point', -, answer', done'⟩ := processed'.expected spaced rfl pov'.higher
    refine ⟨_, _, point.2, point'.2, fun fuel enough => ⟨done fuel (by omega), done' fuel enough⟩, ?_, ?_,
      answer.le answer' pov'.higher.le⟩
    · exact processed.scored point (samples_sublist.subset answer.sample)
    · exact processed'.scored point' (samples_sublist.subset answer'.sample)
  · have processed := pov.processed sound
    obtain ⟨sample, point, -, answer, done⟩ := processed.expected spaced rfl pov.higher
    have notRoot : data.selectedParent ≠ M.origin := by
      intro root
      have score := processed.scored _ List.mem_cons_self
      rw [root, getBlueScore, sound.origin] at score
      cases score
    have place : current = (sink, data.blueScore) ∨
        current ∈ M.pruningSamples ((data.selectedParent, parentScore) :: rest) := by
      rw [pruningSamples, samples] at member
      split at member
      next => exact List.mem_cons.mp member
      next => exact .inr member
    refine ⟨point, answer, fun fuel enough => ?_⟩
    rcases place with rfl | inside
    · exact processed.nextPruningPoints_eq positive notRoot (sound.known stored) (.inr (Nat.le_refl _)) answer
        (done fuel enough) enough
    · exact processed.nextPruningPoints_eq positive notRoot (processed.scored _ (samples_sublist.subset inside))
        (.inl inside) answer (done fuel enough) enough
  · obtain rfl := Option.some.inj (sound.root.symm.trans stored)
    exact if_pos rfl

end Reached

namespace Sample

/-- A block of blue score one above its parent comes in and qualifies. -/
def extend (M : PruningPointManager) (h parent point sample : Hash) (blueScore : Nat) : PruningPointManager :=
  insertSample { M with
    headersStore := M.headersStore.insert h ⟨blueScore, point⟩
    ghostdagStore := M.ghostdagStore.insert h ⟨blueScore, parent⟩ } h sample

/-- Genesis and four blocks, of which every second one is a sample. -/
def grown : PruningPointManager :=
  extend (extend (extend (extend (initial 3 2 1 0 0) 2 1 1 1 1) 3 2 1 1 2) 4 3 1 3 3) 5 4 1 3 4

theorem reached_extend {M : PruningPointManager} (reached : Reached 0 3 2 M) {h parent point sample : Hash}
    {blueScore : Nat} (new : M.headersStore.lookup h = none) (proper : h ≠ M.origin)
    (known : M.getBlueScore parent = some blueScore)
    (verified : ∃ fuel, verifyHeaderPruningPoint { M with
        headersStore := M.headersStore.insert h ⟨blueScore + 1, point⟩
        ghostdagStore := M.ghostdagStore.insert h ⟨blueScore + 1, parent⟩ } fuel ⟨blueScore + 1, point⟩
      ⟨blueScore + 1, parent⟩ = some ⟨sample, point⟩) :
    Reached 0 3 2 (extend M h parent point sample (blueScore + 1)) := by
  obtain ⟨header, there, rfl⟩ := Option.map_eq_some_iff.mp known
  obtain ⟨fuel, verified⟩ := verified
  have headed : Step 0 M { M with
      headersStore := M.headersStore.insert h ⟨header.blueScore + 1, point⟩
      ghostdagStore := M.ghostdagStore.insert h ⟨header.blueScore + 1, parent⟩ } :=
    .header new proper there rfl (Nat.lt_succ_self _) (Nat.le_refl _)
  exact (reached.next headed).next (.qualified (AList.lookup_insert _) (AList.lookup_insert _) verified)

theorem reached_grown : Reached 0 3 2 grown := by
  have one : Reached 0 3 2 (extend (initial 3 2 1 0 0) 2 1 1 1 1) :=
    reached_extend (.genesis (by decide)) rfl (by decide) rfl ⟨9, rfl⟩
  have two : Reached 0 3 2 (extend (extend (initial 3 2 1 0 0) 2 1 1 1 1) 3 2 1 1 2) :=
    reached_extend one rfl (by decide) rfl ⟨9, rfl⟩
  have three : Reached 0 3 2 (extend (extend (extend (initial 3 2 1 0 0) 2 1 1 1 1) 3 2 1 1 2) 4 3 1 3 3) :=
    reached_extend two rfl (by decide) rfl ⟨9, rfl⟩
  exact reached_extend three rfl (by decide) rfl ⟨9, rfl⟩

theorem pov_grown : grown.Pov ⟨5, 5⟩ 4 [(4, 3), (3, 2), (2, 1), (1, 0)] where
  chain := .next (.next (.next (.next .genesis (by decide) rfl) (by decide) rfl) (by decide) rfl) (by decide) rfl
  qualified := .inr rfl
  higher := by decide

end Sample

/-- The block above the four has the first sample after genesis as its pruning point. -/
theorem expectedHeaderPruningPoint_most_recent_grown : ∃ sample point,
    Sample.grown.IsPruningPoint [(5, 4), (4, 3), (3, 2), (2, 1), (1, 0)] 5 point ∧
      Sample.grown.expectedHeaderPruningPoint 9 ⟨5, 5⟩ = some ⟨sample, point.1⟩ ∧ point.1 = 3 := by
  obtain ⟨sample, point, -, answer, done⟩ := (expectedHeaderPruningPoint_most_recent Sample.reached_grown
    (by decide) (by decide)).1 _ _ _ Sample.pov_grown
  have answered := done 9 (by decide)
  refine ⟨sample.1, point, answer, answered, ?_⟩
  have computed : Sample.grown.expectedHeaderPruningPoint 9 ⟨5, 5⟩ = some ⟨5, 3⟩ := rfl
  exact (PruningPointReply.mk.inj (Option.some.inj (answered.symm.trans computed))).2

end PruningPointManager

end Marigold.Consensus
