import Marigold.Smt.InMemory

/-!
# Checks that share a branch cache

`verify_cached` keeps branch hashes by position, with no regard to the proof they came from. All paths
meet at the root, so after the first check that hashes anything the cache answers at the root, and every
later verdict compares with the root of that first check.
-/

namespace Marigold.Smt

open Lib Lib.Bits

/-- The arguments of one call. -/
structure ProofCheck where
  proof : SmtProof
  key : Hash
  leafHash : Option Hash
  root : Hash
  deriving DecidableEq, Repr

namespace ProofCheck

def verify (H : SmtHasher) (check : ProofCheck) : Except SmtProofError Bool :=
  check.proof.verify H check.key check.leafHash check.root

/-- The siblings are as many as announced and there is a level to hash. -/
def Hashes (check : ProofCheck) : Bool :=
  check.proof.siblings.length = clearBefore check.proof.bitmap check.proof.terminal.depth &&
    0 < check.proof.terminal.depth

/-- The root the proof leads to. -/
def computed (H : SmtHasher) (check : ProofCheck) : Hash :=
  ascend H check.proof.bitmap check.key check.proof.terminal.depth check.proof.siblings.reverse
    (initialHash H check.proof.terminal check.key check.leafHash)

end ProofCheck

/-- The verdicts of a sequence of checks on one cache. -/
def verifyAllCached (H : SmtHasher) : List ProofCheck → ProofBranchCache → List (Except SmtProofError Bool)
  | [], _ => []
  | check :: rest, cache =>
    let (verdict, cache) := check.proof.verifyCached H check.key check.leafHash check.root cache
    verdict :: verifyAllCached H rest cache

section Climb

variable {H : SmtHasher} {bitmap : BitVec 256} {key : Hash}

/-- The position of the root. -/
def rootKey : BranchKey := ⟨0, Hash.zero⟩

theorem new_zero (key : Hash) : BranchKey.new 0 key = rootKey := branchKey_of_below (below_root key)

theorem rootKey_ne_new {d : Nat} (deep : d ≠ 0) (key : Hash) : rootKey ≠ BranchKey.new d key :=
  fun same => deep (congrArg BranchKey.depth same).symm

/-- With a branch at the root every climb ends there, and it stays. -/
theorem climb_rooted {d : Nat} (positive : 0 < d) (siblings : List Hash) (current : Hash)
    {cache : ProofBranchCache} {hash : Hash} (rooted : cache.lookup rootKey = some hash) :
    ∃ cache', climb H bitmap key d siblings current (some cache) = (hash, some cache') ∧
      cache'.lookup rootKey = some hash := by
  induction d generalizing siblings current cache with
  | zero => cases positive
  | succ d ih =>
    rcases Nat.eq_zero_or_pos d with rfl | deep
    · refine ⟨cache, ?_, rooted⟩
      have here : cache.lookup (.new 0 key) = some hash := by rw [new_zero, rooted]
      simp only [climb, here]
    · simp only [climb]
      cases cache.lookup (.new d key) with
      | some cached => exact ih deep _ _ rooted
      | none =>
        refine ih deep _ _ ?_
        rw [Map.lookup_insert_eq, if_neg (rootKey_ne_new (Nat.ne_of_gt deep) key)]
        exact rooted

theorem climb_fresh {d : Nat} (siblings : List Hash) (current : Hash) {cache : ProofBranchCache}
    (fresh : ∀ position hash, cache.lookup position = some hash → d ≤ position.depth) :
    ∃ cache', climb H bitmap key d siblings current (some cache) =
        (ascend H bitmap key d siblings current, some cache') ∧
      (0 < d → cache'.lookup rootKey = some (ascend H bitmap key d siblings current)) := by
  induction d generalizing siblings current cache with
  | zero => exact ⟨cache, rfl, fun absurd => nomatch absurd⟩
  | succ d ih =>
    have missing : cache.lookup (.new d key) = none := by
      by_contra found
      obtain ⟨hash, found⟩ := Option.ne_none_iff_exists'.mp found
      exact Nat.not_succ_le_self d (fresh _ _ found)
    simp only [climb, missing, ascend]
    rcases Nat.eq_zero_or_pos d with rfl | deep
    · refine ⟨_, rfl, fun _ => ?_⟩
      rw [Map.lookup_insert_eq, if_pos (new_zero key).symm]
      rfl
    · have above : ∀ hash position found,
          (cache.insert (.new d key) hash).lookup position = some found → d ≤ position.depth := by
        intro hash position found there
        rw [Map.lookup_insert_eq] at there
        split at there
        next here => exact le_of_eq (congrArg BranchKey.depth here).symm
        · exact Nat.le_of_succ_le (fresh position found there)
      obtain ⟨cache', run, rooted⟩ := ih (nextSibling H bitmap d siblings).2 _ (above _)
      exact ⟨cache', run, fun _ => rooted deep⟩

end Climb

section Verdicts

variable {H : SmtHasher}

/-- The verdict with a branch at the root. -/
def ProofCheck.against (H : SmtHasher) (check : ProofCheck) (hash : Hash) : Except SmtProofError Bool :=
  if check.Hashes then .ok (hash == check.root) else check.verify H

theorem verify_of_hashes {check : ProofCheck} (hashes : check.Hashes) :
    check.verify H = .ok (check.computed H == check.root) := by
  obtain ⟨count, -⟩ : _ ∧ _ := by simpa [ProofCheck.Hashes] using hashes
  rw [ProofCheck.verify, verify_eq, if_pos count, ProofCheck.computed]

/-- A check that hashes nothing is not affected by the cache and leaves it alone. -/
theorem verifyCached_of_not_hashes {check : ProofCheck} (idle : ¬ check.Hashes) (cache : ProofBranchCache) :
    check.proof.verifyCached H check.key check.leafHash check.root cache = (check.verify H, cache) := by
  rw [ProofCheck.verify, verify_eq]
  by_cases count : check.proof.siblings.length = clearBefore check.proof.bitmap check.proof.terminal.depth
  · have flat : check.proof.terminal.depth = 0 := by simpa [ProofCheck.Hashes, count] using idle
    have counted : ¬ check.proof.siblings.length ≠ bitmapClearCountBefore check.proof.bitmap
      check.proof.terminal := not_not.mpr count
    rw [SmtProof.verifyCached, computeRootInner, if_pos count, flat]
    simp only [counted, if_false]
    rfl
  · have miscounted : check.proof.siblings.length ≠ bitmapClearCountBefore check.proof.bitmap
      check.proof.terminal := count
    rw [SmtProof.verifyCached, computeRootInner, if_neg count]
    simp only [miscounted, ne_eq, not_false_eq_true, if_true]
    rfl

theorem verifyCached_of_hashes {check : ProofCheck} (hashes : check.Hashes) (cache : ProofBranchCache) :
    check.proof.verifyCached H check.key check.leafHash check.root cache =
      (.ok ((climb H check.proof.bitmap check.key check.proof.terminal.depth check.proof.siblings.reverse
          (initialHash H check.proof.terminal check.key check.leafHash) (some cache)).1 == check.root),
        (climb H check.proof.bitmap check.key check.proof.terminal.depth check.proof.siblings.reverse
          (initialHash H check.proof.terminal check.key check.leafHash) (some cache)).2.getD cache) := by
  obtain ⟨count, -⟩ : _ ∧ _ := by simpa [ProofCheck.Hashes] using hashes
  have counted : ¬ check.proof.siblings.length ≠ bitmapClearCountBefore check.proof.bitmap
      check.proof.terminal := not_not.mpr count
  rw [SmtProof.verifyCached, computeRootInner]
  simp only [counted, if_false]

/-- With a branch at the root all verdicts are about that root. -/
theorem verifyAllCached_rooted (checks : List ProofCheck) {cache : ProofBranchCache} {hash : Hash}
    (rooted : cache.lookup rootKey = some hash) :
    verifyAllCached H checks cache = checks.map fun check => check.against H hash := by
  induction checks generalizing cache with
  | nil => rfl
  | cons check rest ih =>
    rw [verifyAllCached, List.map_cons, ProofCheck.against]
    by_cases hashes : check.Hashes
    · obtain ⟨-, positive⟩ : _ ∧ _ := by simpa [ProofCheck.Hashes] using hashes
      obtain ⟨cache', run, rooted'⟩ := climb_rooted (H := H) positive check.proof.siblings.reverse
        (initialHash H check.proof.terminal check.key check.leafHash) rooted
      rw [verifyCached_of_hashes hashes, run, if_pos hashes]
      exact congrArg _ (ih rooted')
    · rw [verifyCached_of_not_hashes hashes, if_neg hashes]
      exact congrArg _ (ih rooted)

/-- From an empty cache: until a check hashes something the verdicts are its own, from then on those of
the root it leads to. -/
theorem verifyAllCached_empty (checks : List ProofCheck) : verifyAllCached H checks ∅ = checks.map fun check =>
      match checks.find? ProofCheck.Hashes with
      | some first => check.against H (first.computed H)
      | none => check.verify H := by
  induction checks with
  | nil => rfl
  | cons check rest ih =>
    rw [verifyAllCached, List.map_cons]
    by_cases hashes : check.Hashes
    · -- the first one to hash: it meets no branch, and leaves its root behind
      have bare : ∀ position hash, (∅ : ProofBranchCache).lookup position = some hash →
          check.proof.terminal.depth ≤ position.depth := fun _ _ found => nomatch found
      obtain ⟨-, positive⟩ : _ ∧ _ := by simpa [ProofCheck.Hashes] using hashes
      obtain ⟨cache, run, rooted⟩ := climb_fresh (H := H) check.proof.siblings.reverse
        (initialHash H check.proof.terminal check.key check.leafHash) bare
      rw [verifyCached_of_hashes hashes, run, List.find?_cons_of_pos hashes]
      simp only [ProofCheck.against, hashes, if_true]
      exact congrArg _ (verifyAllCached_rooted rest (rooted positive))
    · rw [verifyCached_of_not_hashes hashes, List.find?_cons_of_neg hashes]
      change check.verify H :: verifyAllCached H rest ∅ = _
      rw [ih]
      congr 1
      split
      · rw [ProofCheck.against, if_neg hashes]
      · rfl

end Verdicts

namespace Sample

/-- One sibling at the root. -/
def besideProof : SmtProof := ⟨0#256, [3#256], .collapsed 1⟩

def honestCheck : ProofCheck := ⟨besideProof, 0#256, some 7#256, 1001#256⟩

/-- The same proof for a leaf under another key. -/
def forgedCheck : ProofCheck := ⟨besideProof, 1#256, some 9#256, 1001#256⟩

end Sample

end Marigold.Smt
