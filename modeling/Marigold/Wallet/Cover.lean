import Marigold.Lib.Knapsack
import Marigold.NotePool.Types

/-!
# Selecting notes for an amount

`cover_amount` searches all sums up to the target plus the largest note held, one pass over the sums per
denomination, and falls back to taking the largest notes first where that table would be too large.
-/

namespace Marigold.Wallet

open Lib.Stock NotePool

/-- The ladder, smallest first. -/
def denominations : List DenominationTag :=
  [.d0_01, .d0_1, .d1, .d10, .d100, .d1000, .d10000, .d100000]

/-- A number of notes per denomination. -/
abbrev Counts := DenominationTag → Nat

def petals (d : DenominationTag) : Nat := d.petals.toNat

def quantum : Nat := petals .d0_01

/-- A denomination in hundredths. -/
def units (d : DenominationTag) : Nat := petals d / quantum

variable (counts : Counts)

/-- What the notes are worth, in petals. -/
def value : Nat := worth petals denominations counts

def noteCount : Nat := pieces denominations counts

def searchCap : Nat := 4000000

def ceilDiv (n d : Nat) : Nat := (n + d - 1) / d

/-- The largest denomination held, in hundredths. -/
def largestUnits : Nat :=
  ((denominations.reverse.find? fun d => 0 < counts d).map units).getD 0

/-- The largest sum that is searched, in hundredths. -/
def searchLimit (targetPetals : Nat) : Nat :=
  ceilDiv targetPetals quantum + largestUnits counts

/-! ## The passes -/

/-- One sum in the pass of a denomination: kept if the larger notes reach it, else reached with one more of
this denomination. -/
def sumStep (reach : Array Bool) (d count : Nat) (tables : Array Bool × Array Nat) (sum : Nat) :
    Array Bool × Array Nat :=
  let (next, used) := tables
  if reach.getD sum false then (next.setIfInBounds sum true, used)
  else if 0 < count ∧ d ≤ sum ∧ next.getD (sum - d) false ∧ used.getD (sum - d) 0 < count then
    (next.setIfInBounds sum true, used.setIfInBounds sum (used.getD (sum - d) 0 + 1))
  else (next, used)

def sumPass (len : Nat) (reach : Array Bool) (d count : Nat) : Array Bool × Array Nat :=
  (List.range len).foldl (sumStep reach d count) (Array.replicate len false, Array.replicate len 0)

/-- The sums that are reached, and how many notes each sum takes of each denomination, smallest first. -/
def searchTables (len : Nat) : Array Bool × List (Array Nat) :=
  denominations.reverse.foldl (fun (reach, used) d =>
      -- the counts are cast to 32 bits
      let (next, usedOne) := sumPass len reach (units d) (counts d % 2 ^ 32)
      (next, usedOne :: used))
    ((Array.replicate len false).setIfInBounds 0 true, [])

/-- The choice for a sum, and what is left of the sum. -/
def readBack : List DenominationTag → List (Array Nat) → Nat → Counts → Counts × Nat
  | d :: ds, used :: rest, sum, take =>
    let n := used.getD sum 0
    readBack ds rest (sum - n * units d) (Function.update take d n)
  | _, _, sum, take => (take, sum)

/-- Largest first, until nothing remains. -/
def greedyCover (counts : Counts) : List DenominationTag → Nat → Counts → Counts
  | [], _, take => take
  | d :: rest, remaining, take =>
    let n := min (ceilDiv remaining (petals d)) (counts d)
    let taken := Function.update take d n
    let left := remaining - n * petals d % 2 ^ 64
    if left = 0 then taken else greedyCover counts rest left taken

/-- The least sum at or over the target that is reached, read back. -/
def searchCover (targetPetals : Nat) : Option Counts :=
  let len := searchLimit counts targetPetals + 1
  let tables := searchTables counts len
  let target := ceilDiv targetPetals quantum
  ((List.range' target (len - target)).find? fun sum => tables.1.getD sum false).map fun sum =>
    (readBack denominations tables.2 sum fun _ => 0).1

def coverAmount (targetPetals : Nat) : Option Counts :=
  let held := value counts % 2 ^ 64
  if held < targetPetals then none
  else if searchLimit counts targetPetals > searchCap then
    some (greedyCover counts denominations.reverse targetPetals fun _ => 0)
  else searchCover counts targetPetals

/-! ## What a pass computes -/

section Pass

variable {reach : Array Bool} {len d count : Nat} {n sum : Nat} {tables : Array Bool × Array Nat}

theorem getD_setIfInBounds {α : Type} (tab : Array α) (inside : n < tab.size) (a e : α) (m : Nat) :
    (tab.setIfInBounds n a).getD m e = if m = n then a else tab.getD m e := by
  rw [Array.getD_eq_getD_getElem?, Array.getElem?_setIfInBounds, Array.getD_eq_getD_getElem?]
  by_cases here : m = n
  · subst here
    simp [inside]
  · rw [if_neg (Ne.symm here), if_neg here]

/-- With so many notes of this denomination taken off, the larger ones reach the sum. -/
def Backed (reach : Array Bool) (d sum k : Nat) : Prop := k * d ≤ sum ∧ reach.getD (sum - k * d) false = true

/-- The tables up to a sum: what is reached, and with the fewest notes of this denomination. -/
structure Passed (reach : Array Bool) (len d count n : Nat) (tables : Array Bool × Array Nat) : Prop where
  nextSize : tables.1.size = len
  usedSize : tables.2.size = len
  least : ∀ sum < n, tables.1.getD sum false = true →
    tables.2.getD sum 0 ≤ count ∧ IsLeast {k | Backed reach d sum k} (tables.2.getD sum 0)
  reached : ∀ sum < n, ∀ k ≤ count, Backed reach d sum k → tables.1.getD sum false = true
  ahead : ∀ sum, n ≤ sum → tables.1.getD sum false = false ∧ tables.2.getD sum 0 = 0

theorem backed_zero : Backed reach d sum 0 ↔ reach.getD sum false = true := by simp [Backed]

theorem backed_succ {k : Nat} : Backed reach d sum (k + 1) ↔ d ≤ sum ∧ Backed reach d (sum - d) k := by
  unfold Backed
  rw [Nat.succ_mul]
  constructor
  · rintro ⟨covered, there⟩
    refine ⟨by omega, by omega, ?_⟩
    rwa [Nat.sub_sub, Nat.add_comm d]
  · rintro ⟨room, covered, there⟩
    refine ⟨by omega, ?_⟩
    rwa [Nat.sub_sub, Nat.add_comm d] at there

theorem passed_start : Passed reach len d count 0 (Array.replicate len false, Array.replicate len 0) := by
  refine ⟨Array.size_replicate, Array.size_replicate, fun _ none => (by omega), fun _ none => (by omega),
    fun sum _ => ⟨?_, ?_⟩⟩
  · rw [Array.getD_eq_getD_getElem?, Array.getElem?_replicate]
    split <;> rfl
  · rw [Array.getD_eq_getD_getElem?, Array.getElem?_replicate]
    split <;> rfl

theorem Passed.extend {next next' : Array Bool} {used used' : Array Nat} {fewest : Nat}
    (passed : Passed reach len d count n (next, used)) (sizes : next'.size = len ∧ used'.size = len)
    (next_eq : ∀ m, next'.getD m false = if m = n then true else next.getD m false)
    (used_eq : ∀ m, used'.getD m 0 = if m = n then fewest else used.getD m 0) (few : fewest ≤ count)
    (least : IsLeast {k | Backed reach d n k} fewest) :
    Passed reach len d count (n + 1) (next', used') := by
  refine ⟨sizes.1, sizes.2, ?_, ?_, ?_⟩
  · intro sum below there
    rw [next_eq] at there
    rw [used_eq]
    by_cases here : sum = n
    · rw [if_pos here, here]
      exact ⟨few, least⟩
    · rw [if_neg here] at there ⊢
      exact passed.least sum (by omega) there
  · intro sum below k most backed
    rw [next_eq]
    by_cases here : sum = n
    · rw [if_pos here]
    · rw [if_neg here]
      exact passed.reached sum (by omega) k most backed
  · intro sum above
    have other : sum ≠ n := by omega
    rw [next_eq, used_eq, if_neg other, if_neg other]
    exact passed.ahead sum (by omega)

theorem Passed.skip (passed : Passed reach len d count n tables) (none : ∀ k ≤ count, ¬ Backed reach d n k) :
    Passed reach len d count (n + 1) tables := by
  refine ⟨passed.nextSize, passed.usedSize, ?_, ?_, fun sum above => passed.ahead sum (by omega)⟩
  · intro sum below there
    rcases Nat.lt_succ_iff_lt_or_eq.mp below with earlier | rfl
    · exact passed.least sum earlier there
    · rw [(passed.ahead sum (le_refl _)).1] at there
      cases there
  · intro sum below k most backed
    rcases Nat.lt_succ_iff_lt_or_eq.mp below with earlier | rfl
    · exact passed.reached sum earlier k most backed
    · exact absurd backed (none k most)

theorem Passed.step (passed : Passed reach len d count n tables) (inside : n < len) (positive : 0 < d) :
    Passed reach len d count (n + 1) (sumStep reach d count tables n) := by
  obtain ⟨next, used⟩ := tables
  have marked := getD_setIfInBounds next (passed.nextSize ▸ inside) true false
  unfold sumStep
  dsimp only
  split
  next kept =>
    refine passed.extend ⟨by simpa using passed.nextSize, passed.usedSize⟩ marked (fun m => ?_)
      (Nat.zero_le count) ⟨backed_zero.mpr kept, fun k _ => Nat.zero_le k⟩
    -- no note of this denomination is needed, and none is recorded yet
    split
    next here => exact here ▸ (passed.ahead n (le_refl _)).2
    · rfl
  next fresh =>
    split
    next reached =>
      obtain ⟨-, room, there, few⟩ := reached
      obtain ⟨-, backed, fewest⟩ := passed.least (n - d) (by omega) there
      refine passed.extend ⟨by simpa using passed.nextSize, by simpa using passed.usedSize⟩ marked
        (getD_setIfInBounds used (passed.usedSize ▸ inside) _ 0) few
        ⟨backed_succ.mpr ⟨room, backed⟩, fun k taken => ?_⟩
      cases k with
      | zero => exact absurd (backed_zero.mp taken) fresh
      | succ k => exact Nat.succ_le_succ (fewest (backed_succ.mp taken).2)
    next unreached =>
      refine passed.skip fun k most taken => ?_
      cases k with
      | zero => exact fresh (backed_zero.mp taken)
      | succ k =>
        obtain ⟨room, taken⟩ := backed_succ.mp taken
        have there := passed.reached (n - d) (by omega) k (by omega) taken
        have fewest : used.getD (n - d) 0 ≤ k := (passed.least (n - d) (by omega) there).2.2 taken
        exact unreached ⟨by omega, room, there, by omega⟩

theorem sumPass_passed (positive : 0 < d) : Passed reach len d count len (sumPass len reach d count) := by
  have upTo : ∀ n ≤ len, Passed reach len d count n ((List.range n).foldl (sumStep reach d count)
      (Array.replicate len false, Array.replicate len 0)) := by
    intro n
    induction n with
    | zero => exact fun _ => passed_start
    | succ n ih =>
      intro inside
      rw [List.range_succ, List.foldl_append]
      exact (ih (by omega)).step inside positive
  exact upTo len (le_refl _)

end Pass

/-! ## The search -/

section Search

variable {counts : Counts} {len : Nat} {d : DenominationTag} {rest : List DenominationTag}

/-- The tables of some of the denominations, the passes nested as they follow one another. -/
def tablesOver (counts : Counts) (len : Nat) : List DenominationTag → Array Bool × List (Array Nat)
  | [] => ((Array.replicate len false).setIfInBounds 0 true, [])
  | d :: rest =>
    let (next, usedOne) := sumPass len (tablesOver counts len rest).1 (units d) (counts d % 2 ^ 32)
    (next, usedOne :: (tablesOver counts len rest).2)

theorem searchTables_eq : searchTables counts len = tablesOver counts len denominations := by
  rw [searchTables, List.foldl_reverse]
  rfl

/-- The sums reached are those of the choices, and the choice read back for a sum is a sparing one. -/
structure Searched (counts : Counts) (len : Nat) (kinds : List DenominationTag) : Prop where
  reached : ∀ sum < len, (tablesOver counts len kinds).1.getD sum false = true ↔
    ∃ choice, Within counts kinds choice ∧ worth units kinds choice = sum
  read : ∀ sum < len, (tablesOver counts len kinds).1.getD sum false = true → ∀ take, ∃ choice,
    readBack kinds (tablesOver counts len kinds).2 sum take = (choice, 0) ∧
    (∀ d, d ∉ kinds → choice d = take d) ∧ Within counts kinds choice ∧ worth units kinds choice = sum ∧
    Sparing units counts kinds choice

theorem units_pos (d : DenominationTag) : 0 < units d := by cases d <;> decide

theorem searched_nil (some : 0 < len) : Searched counts len [] := by
  have reach : ∀ sum, (tablesOver counts len []).1.getD sum false = true ↔ sum = 0 := by
    intro sum
    have start : (Array.replicate len false).getD sum false = false := by
      rw [Array.getD_eq_getD_getElem?, Array.getElem?_replicate]
      split <;> rfl
    rw [tablesOver, getD_setIfInBounds _ (by simpa using some), start]
    simp
  refine ⟨fun sum _ => ?_, fun sum _ there take => ?_⟩
  · rw [reach]
    exact ⟨fun zero => ⟨fun _ => 0, fun _ none => (by cases none), zero.symm⟩, fun ⟨_, _, same⟩ => same.symm⟩
  · obtain rfl := (reach sum).mp there
    exact ⟨take, rfl, fun _ _ => rfl, fun _ none => (by cases none), rfl, trivial⟩

/-- A sum less some notes of a denomination is reached by the larger ones if a choice takes so many. -/
theorem Searched.backed_iff (searched : Searched counts len rest) (new : d ∉ rest) {sum : Nat} (inside : sum < len)
    {k : Nat} : Backed (tablesOver counts len rest).1 (units d) sum k ↔
      ∃ choice, choice d = k ∧ Within counts rest choice ∧ worth units (d :: rest) choice = sum := by
  unfold Backed
  constructor
  · rintro ⟨room, there⟩
    obtain ⟨choice, within, same⟩ := (searched.reached _ (by omega)).mp there
    refine ⟨Function.update choice d k, Function.update_self .., fun j member => ?_, ?_⟩
    · rw [Function.update_of_ne (ne_of_mem_of_not_mem member new)]
      exact within j member
    · rw [worth_update new, same]
      omega
  · rintro ⟨choice, rfl, within, same⟩
    rw [worth_cons] at same
    exact ⟨by omega, (searched.reached _ (by omega)).mpr ⟨choice, within, by omega⟩⟩

theorem Searched.cons (searched : Searched counts len rest) (new : d ∉ rest) (small : counts d < 2 ^ 32) :
    Searched counts len (d :: rest) := by
  have passed : Passed (tablesOver counts len rest).1 len (units d) (counts d) len
      (sumPass len (tablesOver counts len rest).1 (units d) (counts d % 2 ^ 32)) := by
    rw [Nat.mod_eq_of_lt small]
    exact sumPass_passed (units_pos d)
  refine ⟨fun sum inside => ⟨fun there => ?_, fun ⟨choice, within, same⟩ => ?_⟩, fun sum inside there take => ?_⟩
  · obtain ⟨few, backed, -⟩ := passed.least sum inside there
    obtain ⟨choice, taken, within, same⟩ := (searched.backed_iff new inside).mp backed
    exact ⟨choice, within_cons.mpr ⟨taken ▸ few, within⟩, same⟩
  · obtain ⟨few, within⟩ := within_cons.mp within
    exact passed.reached sum inside _ few ((searched.backed_iff new inside).mpr ⟨choice, rfl, within, same⟩)
  · have least := passed.least sum inside there
    generalize used : (sumPass len (tablesOver counts len rest).1 (units d) (counts d % 2 ^ 32)).2.getD sum 0 = n
      at least
    obtain ⟨few, ⟨room, larger⟩, fewest⟩ := least
    obtain ⟨choice, read, elsewhere, within, same, sparing⟩ :=
      searched.read _ (by omega) larger (Function.update take d n)
    have taken : choice d = n := (elsewhere d new).trans (Function.update_self ..)
    refine ⟨choice, ?_, fun j outside => ?_, within_cons.mpr ⟨taken ▸ few, within⟩, ?_, ?_, sparing⟩
    · rw [← used] at read
      exact read
    · rw [List.mem_cons, not_or] at outside
      obtain ⟨other, outside⟩ := outside
      rw [elsewhere j outside, Function.update_of_ne other]
    · rw [worth_cons, taken, same]
      omega
    · intro other within' same'
      rw [worth_cons, worth_cons choice, taken, same, Nat.add_sub_cancel' room] at same'
      rw [taken]
      exact fewest ((searched.backed_iff new inside).mpr
        ⟨other, rfl, (within_cons.mp within').2, (worth_cons other).trans same'⟩)

theorem searched (some : 0 < len) (small : ∀ d, counts d < 2 ^ 32) {kinds : List DenominationTag}
    (once : kinds.Nodup) : Searched counts len kinds := by
  induction kinds with
  | nil => exact searched_nil some
  | cons d rest ih =>
    obtain ⟨new, once⟩ := List.nodup_cons.mp once
    exact (ih once).cons new (small d)

end Search

/-! ## Hundredths -/

theorem mem_denominations (d : DenominationTag) : d ∈ denominations := by cases d <;> decide

theorem denominations_nodup : denominations.Nodup := by decide

theorem units_dvd : denominations.Pairwise fun d d' => units d ∣ units d' := by decide

theorem petals_eq (d : DenominationTag) : petals d = units d * quantum := by cases d <;> rfl

theorem value_eq : value counts = worth units denominations counts * quantum :=
  worth_scaled petals_eq counts

theorem le_ceilDiv_mul (n : Nat) {d : Nat} (positive : 0 < d) : n ≤ ceilDiv n d * d := by
  have split := Nat.div_add_mod (n + d - 1) d
  have small := Nat.mod_lt (n + d - 1) positive
  rw [ceilDiv, Nat.mul_comm]
  omega

variable {counts take : Counts} {targetPetals : Nat} {available : List NoteKeyInfo}

theorem covers_iff : targetPetals ≤ value counts ↔ ceilDiv targetPetals quantum ≤ worth units denominations counts := by
  rw [value_eq]
  change _ ↔ (targetPetals + 1000000 - 1) / 1000000 ≤ _
  change targetPetals ≤ _ * 1000000 ↔ _
  omega

theorem le_largestUnits (d : DenominationTag) (some : 0 < counts d) : units d ≤ largestUnits counts := by
  have falling : denominations.reverse.Pairwise fun d d' => units d' ≤ units d := by decide
  have member : d ∈ denominations.reverse := List.mem_reverse.mpr (mem_denominations d)
  cases found : denominations.reverse.find? fun d => 0 < counts d with
  | none => exact absurd (by simpa using some) (List.find?_eq_none.mp found d member)
  | some first =>
    rw [largestUnits, found]
    obtain ⟨-, before, after, split, none⟩ := List.find?_eq_some_iff_append.mp found
    rw [split] at member falling
    rcases List.mem_append.mp member with earlier | later
    · have zero := none d earlier
      exact absurd some (by simpa using zero)
    · rcases List.mem_cons.mp later with rfl | later
      · exact le_refl _
      · exact (List.pairwise_cons.mp (List.pairwise_append.mp falling).2.1).1 d later

/-! ## Largest first -/

theorem greedyCover_covers {kinds : List DenominationTag} (once : kinds.Nodup)
    (fits : worth petals kinds counts < 2 ^ 64) {remaining : Nat} (enough : remaining ≤ worth petals kinds counts)
    (start : Within counts kinds take) : (∀ d, d ∉ kinds → greedyCover counts kinds remaining take d = take d) ∧
      Within counts kinds (greedyCover counts kinds remaining take) ∧
      remaining ≤ worth petals kinds (greedyCover counts kinds remaining take) := by
  induction kinds generalizing remaining take with
  | nil => exact ⟨fun _ _ => rfl, start, enough⟩
  | cons d rest ih =>
    obtain ⟨new, once⟩ := List.nodup_cons.mp once
    rw [worth_cons] at fits enough
    have positive : 0 < petals d := by cases d <;> decide
    have most : min (ceilDiv remaining (petals d)) (counts d) * petals d ≤ counts d * petals d :=
      Nat.mul_le_mul_right _ (Nat.min_le_right _ _)
    rw [greedyCover, Nat.mod_eq_of_lt (by omega)]
    have within := (within_update (c := take) new).mpr
      ⟨Nat.min_le_right (ceilDiv remaining (petals d)) (counts d), (within_cons.mp start).2⟩
    split
    next done =>
      refine ⟨fun j outside => ?_, within, ?_⟩
      · rw [List.mem_cons, not_or] at outside
        exact Function.update_of_ne outside.1 _ _
      · rw [worth_update new]
        omega
    next more =>
      -- something is left, so all notes of this denomination are taken
      have all : min (ceilDiv remaining (petals d)) (counts d) = counts d := by
        by_contra fewer
        have whole : min (ceilDiv remaining (petals d)) (counts d) = ceilDiv remaining (petals d) := by omega
        have covered := le_ceilDiv_mul remaining positive
        rw [whole] at more
        omega
      rw [all] at within more ⊢
      obtain ⟨elsewhere, within', covers⟩ := ih once (by omega)
        (show remaining - counts d * petals d ≤ _ by omega) (within_cons.mp within).2
      refine ⟨fun j outside => ?_, ?_, ?_⟩
      · rw [List.mem_cons, not_or] at outside
        rw [elsewhere j outside.2, Function.update_of_ne outside.1]
      · refine within_cons.mpr ⟨?_, within'⟩
        rw [elsewhere d new, Function.update_self]
      · rw [worth_cons, elsewhere d new, Function.update_self]
        omega

theorem worth_reverse (unit : DenominationTag → Nat) (kinds : List DenominationTag) (counts : Counts) :
    worth unit kinds.reverse counts = worth unit kinds counts := by
  rw [worth, worth, List.map_reverse, List.sum_reverse]

/-! ## Covers -/

theorem within_denominations : Within counts denominations take ↔ ∀ d, take d ≤ counts d :=
  ⟨fun within d => within d (mem_denominations d), fun all d _ => all d⟩

/-- The least sum that is reached, and a sparing choice for it. -/
theorem searchCover_optimal (small : ∀ d, counts d < 2 ^ 32) (enough : targetPetals ≤ value counts) :
    ∃ take, searchCover counts targetPetals = some take ∧ (∀ d, take d ≤ counts d) ∧ targetPetals ≤ value take ∧
      ∀ other : Counts, (∀ d, other d ≤ counts d) → targetPetals ≤ value other →
        value take ≤ value other ∧ (value other = value take → noteCount take ≤ noteCount other) := by
  have tables : Searched counts (searchLimit counts targetPetals + 1) denominations :=
    searched (Nat.succ_pos _) small denominations_nodup
  obtain ⟨least, within, covers, near, fewest⟩ := exists_least_cover denominations_nodup
    (fun d _ => units_pos d) (fun d _ some => le_largestUnits d some) (covers_iff.mp enough)
  simp only [searchCover, searchTables_eq]
  generalize limit : searchLimit counts targetPetals = top at tables ⊢
  rw [searchLimit] at limit
  have there := (tables.reached _ (by omega)).mpr ⟨least, within, rfl⟩
  have found : (List.range' (ceilDiv targetPetals quantum) (top + 1 - ceilDiv targetPetals quantum)).find?
      (fun sum => (tablesOver counts (top + 1) denominations).1.getD sum false) =
      some (worth units denominations least) := by
    refine List.find?_range'_eq_some.mpr ⟨there, List.mem_range'_1.mpr (by omega), fun sum above below => ?_⟩
    by_contra reached
    obtain ⟨other, within', rfl⟩ := (tables.reached sum (by omega)).mp (by simpa using reached)
    have least' := fewest other within' above
    omega
  obtain ⟨take, read, -, within', same, sparing⟩ := tables.read _ (by omega) there fun _ => 0
  refine ⟨take, by rw [found, Option.map_some, read], within_denominations.mp within', covers_iff.mpr (same ▸ covers), ?_⟩
  intro other within'' covers'
  have least' := fewest other (within_denominations.mpr within'') (covers_iff.mp covers')
  rw [value_eq, value_eq, same]
  refine ⟨Nat.mul_le_mul_right _ least', fun equal => ?_⟩
  have equal' : worth units denominations other = worth units denominations take :=
    (Nat.eq_of_mul_eq_mul_right (by decide) equal).trans same.symm
  exact sparing.pieces_le denominations_nodup units_dvd (fun d _ => units_pos d) within'
    (within_denominations.mpr within'') equal'

theorem greedyCover_denominations (fits : value counts < 2 ^ 64) (enough : targetPetals ≤ value counts) :
    (∀ d, greedyCover counts denominations.reverse targetPetals (fun _ => 0) d ≤ counts d) ∧
      targetPetals ≤ value (greedyCover counts denominations.reverse targetPetals fun _ => 0) := by
  have once : denominations.reverse.Nodup := by decide
  have start : Within counts denominations.reverse fun _ => 0 := fun _ _ => Nat.zero_le _
  obtain ⟨-, within, covers⟩ := greedyCover_covers once ((worth_reverse petals denominations counts).trans_lt fits)
    (enough.trans_eq (worth_reverse petals denominations counts).symm) start
  refine ⟨fun d => within d (List.mem_reverse.mpr (mem_denominations d)), ?_⟩
  rw [worth_reverse] at covers
  exact covers

section Cover

variable {counts : Counts} {targetPetals : Nat}

theorem coverAmount_short (fits : value counts < 2 ^ 64) (short : value counts < targetPetals) :
    coverAmount counts targetPetals = none := by
  rw [coverAmount, Nat.mod_eq_of_lt fits, if_pos short]

theorem coverAmount_enough (small : ∀ d, counts d < 2 ^ 32) (fits : value counts < 2 ^ 64)
    (enough : targetPetals ≤ value counts) :
    ∃ take, coverAmount counts targetPetals = some take ∧ (∀ d, take d ≤ counts d) ∧ targetPetals ≤ value take ∧
      (searchLimit counts targetPetals ≤ searchCap →
        ∀ other : Counts, (∀ d, other d ≤ counts d) → targetPetals ≤ value other →
          value take ≤ value other ∧ (value other = value take → noteCount take ≤ noteCount other)) := by
  rw [coverAmount, Nat.mod_eq_of_lt fits, if_neg (not_lt.mpr enough)]
  split
  next far =>
    obtain ⟨within, covers⟩ := greedyCover_denominations fits enough
    exact ⟨_, rfl, within, covers, fun near => by omega⟩
  next near =>
    obtain ⟨take, same, within, covers, optimal⟩ := searchCover_optimal small enough
    exact ⟨take, same, within, covers, fun _ => optimal⟩

end Cover

/-- Nothing is selected only if too little is held; what is selected is held and covers the target; and where
the search is made it is a cover of the least value, with the fewest notes of that value. -/
theorem coverAmount_optimal (counts : Counts) (small : ∀ d, counts d < 2 ^ 32) (fits : value counts < 2 ^ 64)
    (targetPetals : Nat) :
    (coverAmount counts targetPetals = none ↔ value counts < targetPetals) ∧
      ∀ take, coverAmount counts targetPetals = some take →
        (∀ d, take d ≤ counts d) ∧ targetPetals ≤ value take ∧
        (searchLimit counts targetPetals ≤ searchCap →
          ∀ other : Counts, (∀ d, other d ≤ counts d) → targetPetals ≤ value other →
            value take ≤ value other ∧ (value other = value take → noteCount take ≤ noteCount other)) := by
  rcases Nat.lt_or_ge (value counts) targetPetals with short | enough
  · rw [coverAmount_short fits short]
    exact ⟨⟨fun _ => short, fun _ => rfl⟩, fun _ none => by cases none⟩
  · obtain ⟨take, same, correct⟩ := coverAmount_enough small fits enough
    rw [same]
    refine ⟨⟨fun none => (by cases none), fun short => by omega⟩, fun take' same' => ?_⟩
    cases same'
    exact correct

/-- Three 0.01s and a 0.1. -/
def Sample.heldNotes : Counts
  | .d0_01 => 3
  | .d0_1 => 1
  | _ => 0

open Sample in
/-- 0.02 is paid with two 0.01s. -/
theorem coverAmount_optimal_heldNotes : ∃ take, coverAmount heldNotes 2000000 = some take ∧
    (∀ d, take d ≤ heldNotes d) ∧ value take = 2000000 ∧
    ∀ other : Counts, (∀ d, other d ≤ heldNotes d) → value other = 2000000 → noteCount take ≤ noteCount other := by
  have small : ∀ d, heldNotes d < 2 ^ 32 := by
    intro d
    cases d <;> decide
  have worths : (coverAmount heldNotes 2000000).map value = some 2000000 := by decide +kernel
  obtain ⟨take, selected, exact'⟩ := Option.map_eq_some_iff.mp worths
  obtain ⟨within, -, optimal⟩ := (coverAmount_optimal heldNotes small (by decide) 2000000).2 take selected
  refine ⟨take, selected, within, exact', fun other within' same => ?_⟩
  exact (optimal (by decide) other within' same.ge).2 (same.trans exact'.symm)

/-! ## Selecting held notes -/

/-- A held note, as far as it is selected by it. -/
structure NoteKeyInfo where
  sn : Hash
  d : DenominationTag

def countsOf (available : List NoteKeyInfo) : Counts := fun d => available.countP fun info => info.d = d

/-- The first notes of each denomination, so many as are to be taken. -/
def pickNotes : List NoteKeyInfo → Counts → List NoteKeyInfo
  | [], _ => []
  | info :: rest, take =>
    if 0 < take info.d then info :: pickNotes rest (Function.update take info.d (take info.d - 1))
    else pickNotes rest take

def selectCover (available : List NoteKeyInfo) (targetPetals : Nat) : Option (List Hash) :=
  (coverAmount (countsOf available) targetPetals).map fun take => (pickNotes available take).map NoteKeyInfo.sn

theorem countsOf_cons (info : NoteKeyInfo) (rest : List NoteKeyInfo) (d : DenominationTag) :
    countsOf (info :: rest) d = countsOf rest d + if info.d = d then 1 else 0 := by
  simp [countsOf, List.countP_cons]

theorem pickNotes_sublist (available : List NoteKeyInfo) (take : Counts) :
    (pickNotes available take).Sublist available := by
  induction available generalizing take with
  | nil => exact .slnil
  | cons info rest ih =>
    unfold pickNotes
    split
    · exact (ih _).cons_cons _
    · exact (ih _).cons _

theorem countsOf_pickNotes (within : ∀ d, take d ≤ countsOf available d) :
    countsOf (pickNotes available take) = take := by
  induction available generalizing take with
  | nil => exact funext fun d => (Nat.le_zero.mp (within d)).symm
  | cons info rest ih =>
    unfold pickNotes
    split
    next some =>
      funext d
      have rest' : ∀ d, Function.update take info.d (take info.d - 1) d ≤ countsOf rest d := by
        intro d
        have most := within d
        rw [countsOf_cons] at most
        by_cases here : info.d = d
        · subst here
          rw [if_pos rfl] at most
          rw [Function.update_self]
          omega
        · rw [if_neg here] at most
          rwa [Function.update_of_ne (Ne.symm here)]
      rw [countsOf_cons, ih rest']
      by_cases here : info.d = d
      · subst here
        rw [if_pos rfl, Function.update_self]
        omega
      · rw [if_neg here, Function.update_of_ne (Ne.symm here)]
        rfl
    next none =>
      refine ih fun d => ?_
      have most := within d
      rw [countsOf_cons] at most
      by_cases here : info.d = d
      · subst here
        omega
      · rwa [if_neg here] at most

theorem noteCount_countsOf (notes : List NoteKeyInfo) : noteCount (countsOf notes) = notes.length := by
  induction notes with
  | nil => rfl
  | cons info rest ih =>
    obtain ⟨sn, d⟩ := info
    rw [List.length_cons, ← ih]
    cases d <;> simp [noteCount, pieces, denominations, countsOf_cons] <;> omega

/-- Nothing is selected only if the notes are worth too little. What is selected are some of the notes and worth
the target; where the search is made, none worth it are worth less, or worth the same and fewer. -/
theorem selectCover_optimal (small : available.length < 2 ^ 32) (fits : value (countsOf available) < 2 ^ 64)
    (targetPetals : Nat) : (selectCover available targetPetals = none ↔ value (countsOf available) < targetPetals) ∧
      ∀ selected, selectCover available targetPetals = some selected →
        ∃ notes, notes.Sublist available ∧ selected = notes.map NoteKeyInfo.sn ∧ targetPetals ≤ value (countsOf notes) ∧
          (searchLimit (countsOf available) targetPetals ≤ searchCap →
            ∀ others, others.Sublist available → targetPetals ≤ value (countsOf others) →
              value (countsOf notes) ≤ value (countsOf others) ∧
              (value (countsOf others) = value (countsOf notes) → notes.length ≤ others.length)) := by
  unfold selectCover
  rcases Nat.lt_or_ge (value (countsOf available)) targetPetals with short | enough
  · rw [coverAmount_short fits short]
    exact ⟨⟨fun _ => short, fun _ => rfl⟩, fun _ none => by cases none⟩
  · have few : ∀ d, countsOf available d < 2 ^ 32 := fun d => List.countP_le_length.trans_lt small
    obtain ⟨take, same, within, covers, optimal⟩ := coverAmount_enough few fits enough
    have picked := countsOf_pickNotes within
    rw [same]
    refine ⟨⟨fun none => (by cases none), fun short => by omega⟩, fun selected some => ?_⟩
    cases some
    refine ⟨pickNotes available take, pickNotes_sublist available take, rfl, ?_⟩
    rw [picked]
    refine ⟨covers, fun searched others sublist covers' => ?_⟩
    rw [← noteCount_countsOf, ← noteCount_countsOf, picked]
    exact optimal searched _ (fun d => sublist.countP_le) covers'

/-- Of three 0.01s and a 0.1, two 0.01s pay 0.02. -/
theorem selectCover_optimal_heldNotes :
    let notes : List NoteKeyInfo := [⟨1, .d0_01⟩, ⟨2, .d0_1⟩, ⟨3, .d0_01⟩, ⟨4, .d0_01⟩]
    selectCover notes 2000000 = some [1, 3] ∧
      ∀ others, others.Sublist notes → value (countsOf others) = 2000000 → 2 ≤ others.length := by
  intro notes
  have selected : selectCover notes 2000000 = some [1, 3] := by decide +kernel
  refine ⟨selected, fun others sublist worth => ?_⟩
  obtain ⟨some, -, same, covers, optimal⟩ := (selectCover_optimal (by decide) (by decide) 2000000).2 _ selected
  have two : some.length = 2 := by simpa using (congrArg List.length same).symm
  obtain ⟨least, fewest⟩ := optimal (by decide) others sublist worth.ge
  exact two ▸ fewest (worth.trans (le_antisymm covers (least.trans_eq worth)))

end Marigold.Wallet
