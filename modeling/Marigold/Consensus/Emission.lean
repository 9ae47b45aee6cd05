import Mathlib.Algebra.Order.BigOperators.Group.Finset
import Mathlib.Data.List.GetD
import Marigold.Consensus.Coinbase
import Marigold.Consensus.TxInIsolation

/-!
# Emission

The subsidy schedule of `processes/coinbase.rs`: a table of monthly rates per second, divided by the
block rate and rounded up. Rounding up is what takes the sum of all subsidies past the cap the table
was made for.
-/

namespace Marigold.Consensus

open Lib

/-- `ForkActivation::always` and `never`. -/
def alwaysActive : UInt64 := 0

def neverActive : UInt64 := UInt64.ofNat (2 ^ 64 - 1)

/-- A parameter that changes at a DAA score. -/
structure ForkedParam where
  pre : UInt64
  post : UInt64
  activation : UInt64

namespace ForkedParam

def before (p : ForkedParam) : UInt64 := if p.activation = alwaysActive then p.post else p.pre

def after (p : ForkedParam) : UInt64 := if p.activation = neverActive then p.pre else p.post

end ForkedParam

/-- A month is a twelfth of 365.25 days. -/
def secondsPerMonth : UInt64 := 2629800

/-- `div_ceil`. -/
def divCeil (a b : UInt64) : UInt64 := if a % b > 0 then a / b + 1 else a / b

/-- Sompi per second, month by month. -/
def subsidyByMonthTable : List UInt64 :=
  [152280843, 149376860, 146528257, 143733976, 140992981, 138304258, 135666807, 133079653,
    130541836, 128052415, 125610466, 123215086, 120865385, 118560493, 116299554, 114081732,
    111906203, 109772162, 107678816, 105625391, 103611124, 101635269, 99697093, 97795878, 95930920,
    94101525, 92307017, 90546731, 88820013, 87126223, 85464733, 83834928, 82236204, 80667966,
    79129635, 77620640, 76140421, 74688430, 73264128, 71866988, 70496491, 69152129, 67833404,
    66539827, 65270918, 64026207, 62805233, 61607543, 60432692, 59280246, 58149777, 57040866,
    55953102, 54886081, 53839408, 52812695, 51805562, 50817634, 49848547, 48897939, 47965460,
    47050763, 46153509, 45273365, 44410006, 43563111, 42732367, 41917464, 41118102, 40333983,
    39564818, 38810320, 38070211, 37344215, 36632064, 35933494, 35248245, 34576064, 33916702,
    33269913, 32635459, 32013104, 31402617, 30803771, 30216346, 29640123, 29074889, 28520433,
    27976551, 27443040, 26919704, 26406348, 25902781, 25408817, 24924273, 24448970, 23982730,
    23525381, 23076754, 22636683, 22205003, 21781556, 21366183, 20958732, 20559051, 20166992,
    19782409, 19405160, 19035105, 18672108, 18316032, 17966747, 17624123, 17288032, 16958351,
    16634957, 16317730, 16006552, 15701308, 15401886, 15108173, 14820062, 14537444, 14260217,
    13988275, 13721520, 13459852, 13203174, 12951390, 12704409, 12462137, 12224485, 11991365,
    11762691, 11538377, 11318341, 11102502, 10890778, 10683092, 10479366, 10279525, 10083496,
    9891204, 9702580, 9517553, 9336054, 9158016, 8983373, 8812061, 8644016, 8479175, 8317478,
    8158865, 8003276, 7850654, 7700943, 7554087, 7410031, 7268722, 7130108, 6994138, 6860760,
    6729926, 6601587, 6475695, 6352204, 6231068, 6112242, 5995682, 5881345, 5769189, 5659171,
    5551251, 5445389, 5341546, 5239683, 5139763, 5041748, 4945602, 4851290, 4758776, 4668027,
    4579008, 4491687, 4406031, 4322008, 4239588, 4158739, 4079432, 4001638, 3925327, 3850471,
    3777043, 3705015, 3634361, 3565054, 3497069, 3430380, 3364963, 3300793, 3237848, 3176102,
    3115534, 3056121, 2997841, 2940673, 2884594, 2829585, 2775625, 2722694, 2670773, 2619842,
    2569881, 2520874, 2472801, 2425645, 2379388, 2334013, 2289504, 2245843, 2203015, 2161004,
    2119794, 2079370, 2039716, 2000819, 1962664, 1925236, 1888522, 1852508, 1817181, 1782527,
    1748534, 1715190, 1682482, 1650397, 1618924, 1588051, 1557767, 1528061, 1498921, 1470336,
    1442297, 1414793, 1387813, 1361347, 1335386, 1309921, 1284941, 1260437, 1236401, 1212823,
    1189694, 1167007, 1144752, 1122922, 1101508, 1080502, 1059897, 1039685, 1019858, 1000409,
    981332, 962618, 944261, 926254, 908590, 891264, 874267, 857595, 841241, 825198, 809462, 794026,
    778884, 764030, 749460, 735168, 721149, 707396, 693906, 680674, 667693, 654960, 642470, 630218,
    618200, 606411, 594847, 583503, 572376, 561461, 550754, 540251, 529948, 519842, 509929, 500205,
    490666, 481309, 472130, 463127, 454295, 445632, 437134, 428798, 420620, 412599, 404731, 397013,
    389442, 382015, 374730, 367584, 360574, 353698, 346953, 340337, 333847, 327480, 321235, 315109,
    309100, 303206, 297424, 291752, 286188, 280730, 275377, 270126, 264974, 259921, 254965, 250102,
    245333, 240654, 236065, 231563, 227148, 222816, 218567, 214399, 210310, 206300, 202365, 198506,
    194721, 191008, 187365, 183792, 180287, 176849, 173477, 170168, 166923, 163740, 160618, 157555,
    154550, 151603, 148712, 145876, 143094, 140365, 137688, 135063, 132487, 129961, 127482, 125051,
    122666, 120327, 118033, 115782, 113574, 111408, 109283, 107199, 105155, 103150, 101183, 99253,
    97360, 95504, 93683, 91896, 90144, 88425, 86738, 85084, 83462, 81870, 80309, 78777, 77275,
    75801, 74356, 72938, 71547, 70183, 68844, 67531, 66244, 64980, 63741, 62526, 61333, 60164,
    59016, 57891, 56787, 55704, 54642, 53600, 52578, 51575, 50591, 49627, 48680, 47752, 46841,
    45948, 45072, 44212, 43369, 42542, 41731, 40935, 40154, 39389, 38638, 37901, 37178, 36469,
    35774, 35091, 34422, 33766, 33122, 32490, 31871, 31263, 30667, 30082, 29508, 28945, 28393,
    27852, 27321, 26800, 26289, 25787, 25296, 24813, 24340, 23876, 23421, 22974, 22536, 22106,
    21685, 21271, 20865, 20468, 20077, 19694, 19319, 18950, 18589, 18234, 17887, 17546, 17211,
    16883, 16561, 16245, 15935, 15631, 15333, 15041, 14754, 14473, 14197, 13926, 13660, 13400,
    13144, 12894, 12648, 12407, 12170, 11938, 11710, 11487, 11268, 11053, 10842, 10636, 10433,
    10234, 10039, 9847, 9659, 9475, 9294, 9117, 8943, 8773, 8606, 8441, 8280, 8123, 7968, 7816,
    7667, 7520, 7377, 7236, 7098, 6963, 6830, 6700, 6572, 6447, 6324, 6203, 6085, 5969, 5855, 5744,
    5634, 5527, 5421, 5318, 5216, 5117, 5019, 4924, 4830, 4738, 4647, 4559, 4472, 4386, 4303, 4221,
    4140, 4061, 3984, 3908, 3833, 3760, 3689, 3618, 3549, 3481, 3415, 3350, 3286, 3223, 3162, 3102,
    3043, 2984, 2928, 2872, 2817, 2763, 2711, 2659, 2608, 2558, 2510, 2462, 2415, 2369, 2324, 2279,
    2236, 2193, 2151, 2110, 2070, 2031, 1992, 1954, 1917, 1880, 1844, 1809, 1775, 1741, 1708, 1675,
    1643, 1612, 1581, 1551, 1521, 1492, 1464, 1436, 1408, 1382, 1355, 1329, 1304, 1279, 1255, 1231,
    1207, 1184, 1162, 1140, 1118, 1097, 1076, 1055, 1035, 1015, 996, 977, 958, 940, 922, 905, 887,
    870, 854, 837, 822, 806, 790, 775, 761, 746, 732, 718, 704, 691, 678, 665, 652, 640, 627, 615,
    604, 592, 581, 570, 559, 548, 538, 528, 518, 508, 498, 488, 479, 470, 461, 452, 444, 435, 427,
    419, 411, 403, 395, 388, 380, 373, 366, 359, 352, 345, 339, 332, 326, 320, 314, 308, 302, 296,
    290, 285, 279, 274, 269, 264, 259, 254, 249, 244, 240, 235, 231, 226, 222, 218, 213, 209, 205,
    201, 198, 194, 190, 187, 183, 179, 176, 173, 169, 166, 163, 160, 157, 154, 151, 148, 145, 142,
    140, 137, 134, 132, 129, 127, 124, 122, 120, 118, 115, 113, 111, 109, 107, 105, 103, 101, 99,
    97, 95, 93, 91, 90, 88, 86, 85, 83, 82, 80, 78, 77, 75, 74, 73, 71, 70, 69, 67, 66, 65, 63, 62,
    61, 60, 59, 58, 57, 55, 54, 53, 52, 51, 50, 49, 48, 48, 47, 46, 45, 44, 43, 42, 42, 41, 40, 39,
    38, 38, 37, 36, 36, 35, 34, 34, 33, 32, 32, 31, 31, 30, 29, 29, 28, 28, 27, 27, 26, 26, 25, 25,
    24, 24, 23, 23, 22, 22, 22, 21, 21, 20, 20, 20, 19, 19, 19, 18, 18, 17, 17, 17, 16, 16, 16, 16,
    15, 15, 15, 14, 14, 14, 14, 13, 13, 13, 13, 12, 12, 12, 12, 11, 11, 11, 11, 11, 10, 10, 10, 10,
    10, 9, 9, 9, 9, 9, 9, 8, 8, 8, 8, 8, 8, 7, 7, 7, 7, 7, 7, 7, 7, 6, 6, 6, 6, 6, 6, 6, 6, 6, 5, 5,
    5, 5, 5, 5, 5, 5, 5, 5, 4, 4, 4, 4, 4, 4, 4, 4, 4, 4, 4, 4, 4, 3, 3, 3, 3, 3, 3, 3, 3, 3, 3, 3,
    3, 3, 3, 3, 3, 3, 2, 2, 2, 2, 2, 2, 2, 2, 2, 2, 2, 2, 2, 2, 2, 2, 2, 2, 2, 2, 2, 2, 2, 2, 2, 2,
    2, 1, 1, 1, 1, 1, 1, 1, 1, 1, 1, 1, 1, 1, 1, 1, 1, 1, 1, 1, 1, 1, 1, 1, 1, 1, 1, 1, 1, 1, 1, 1,
    1, 1, 1, 1, 1, 1, 1, 1, 1, 1, 1, 1, 1, 1, 1, 1, 1, 1, 1, 1, 1, 1, 1, 1, 1, 1, 0]

/-- The part of a coinbase manager the subsidy depends on. -/
structure EmissionParams where
  deflationaryPhaseDaaScore : UInt64
  preDeflationaryPhaseBaseSubsidy : UInt64
  bpsHistory : ForkedParam

namespace EmissionParams

variable (P : EmissionParams)

/-- The table per block at a given block rate. -/
def subsidyTable (bps : UInt64) : List UInt64 := subsidyByMonthTable.map (divCeil · bps)

def subsidyByMonthTableBefore : List UInt64 := subsidyTable P.bpsHistory.before

def subsidyByMonthTableAfter : List UInt64 := subsidyTable P.bpsHistory.after

/-- Seconds are counted at the block rate of their time. -/
def secondsSinceDeflation (daaScore : UInt64) : UInt64 :=
  let crescendo := P.bpsHistory.activation
  if crescendo < P.deflationaryPhaseDaaScore then
    (daaScore - P.deflationaryPhaseDaaScore) / P.bpsHistory.after
  else if daaScore < crescendo then
    (daaScore - P.deflationaryPhaseDaaScore) / P.bpsHistory.before
  else
    (crescendo - P.deflationaryPhaseDaaScore) / P.bpsHistory.before + (daaScore - crescendo) / P.bpsHistory.after

def subsidyMonth (daaScore : UInt64) : UInt64 := P.secondsSinceDeflation daaScore / secondsPerMonth

def calcBlockSubsidy (daaScore : UInt64) : UInt64 :=
  if daaScore < P.deflationaryPhaseDaaScore then P.preDeflationaryPhaseBaseSubsidy
  else
    let table := if isActive P.bpsHistory.activation daaScore then P.subsidyByMonthTableAfter
      else P.subsidyByMonthTableBefore
    table.getD (min (P.subsidyMonth daaScore).toNat (table.length - 1)) 0

end EmissionParams

/-- `CoinbaseManager::new`. -/
def CoinbaseManager.new (coinbasePayloadScriptPublicKeyMaxLen : UInt8)
    (maxCoinbasePayloadLen : Nat) (P : EmissionParams) : CoinbaseManager :=
  ⟨coinbasePayloadScriptPublicKeyMaxLen, maxCoinbasePayloadLen, P.calcBlockSubsidy⟩

/-- Ten blocks a second throughout, and deflation from the first block on. -/
def mainnetEmission : EmissionParams where
  deflationaryPhaseDaaScore := 0
  preDeflationaryPhaseBaseSubsidy := 50000000000 / 10
  bpsHistory := ⟨1000 / 100, 1000 / 100, alwaysActive⟩

/-! ## The sum of all subsidies -/

/-- The subsidy per mainnet block, month by month; it stays at the last entry of the table. -/
def mainnetSubsidyOfMonth (month : Nat) : Nat :=
  ((EmissionParams.subsidyTable 10).getD (min month 1015) 0).toNat

/-- The subsidies of all blocks with a DAA score below `n`. -/
def mainnetEmitted (n : Nat) : Nat :=
  ∑ score ∈ Finset.range n, (mainnetEmission.calcBlockSubsidy (UInt64.ofNat score)).toNat

/-- Mainnet blocks in a month. -/
def blocksPerMonth : Nat := 26298000

theorem calcBlockSubsidy_mainnet (score : UInt64) :
    (mainnetEmission.calcBlockSubsidy score).toNat = mainnetSubsidyOfMonth (score.toNat / blocksPerMonth) := by
  have started : ¬ score < mainnetEmission.deflationaryPhaseDaaScore := by
    simp [mainnetEmission, UInt64.lt_iff_toNat_lt]
  have active : isActive mainnetEmission.bpsHistory.activation score = true := by
    simp [isActive, mainnetEmission, alwaysActive, UInt64.le_iff_toNat_le]
  have table : mainnetEmission.subsidyByMonthTableAfter = EmissionParams.subsidyTable 10 := rfl
  have size : (EmissionParams.subsidyTable 10).length - 1 = 1015 := by decide +kernel
  have seconds : mainnetEmission.secondsSinceDeflation score = score / 10 := by
    have first : ¬ score < (0 : UInt64) := started
    simp [EmissionParams.secondsSinceDeflation, mainnetEmission, alwaysActive, neverActive, ForkedParam.after, first]
  have month : (mainnetEmission.subsidyMonth score).toNat = score.toNat / blocksPerMonth := by
    rw [EmissionParams.subsidyMonth, seconds, UInt64.toNat_div, UInt64.toNat_div]
    exact Nat.div_div_eq_div_mul ..
  rw [EmissionParams.calcBlockSubsidy, if_neg started, active, if_pos rfl, table]
  dsimp only
  rw [size, month, mainnetSubsidyOfMonth]

private theorem sum_by_month (rate : Nat → Nat) {size : Nat} (pos : 0 < size) (months rest : Nat)
    (short : rest ≤ size) : ∑ score ∈ Finset.range (months * size + rest), rate (score / size) =
      size * ∑ month ∈ Finset.range months, rate month + rest * rate months := by
  have inMonth : ∀ month count, count ≤ size →
      ∑ score ∈ Finset.range count, rate ((month * size + score) / size) = count * rate month := by
    intro month count inside
    refine (Finset.sum_const_nat fun score member => ?_).trans (by rw [Finset.card_range])
    have small : score < size := Nat.lt_of_lt_of_le (Finset.mem_range.mp member) inside
    rw [Nat.add_comm, Nat.add_mul_div_right _ _ pos, Nat.div_eq_of_lt small, Nat.zero_add]
  rw [Finset.sum_range_add, inMonth months rest short]
  congr 1
  induction months with
  | zero => simp
  | succ months ih =>
    rw [Nat.succ_mul, Finset.sum_range_add, ih, inMonth months size le_rfl, Finset.sum_range_succ, Nat.mul_add]

/-- The mainnet table as numbers. -/
def mainnetTable : List Nat := (EmissionParams.subsidyTable 10).map UInt64.toNat

theorem mainnetTable_length : mainnetTable.length = 1016 := by decide +kernel

theorem mainnetTable_pairwise : mainnetTable.Pairwise (· ≥ ·) := by
  have chain : mainnetTable.IsChain (· ≥ ·) := by decide +kernel
  exact List.isChain_iff_pairwise.mp chain

theorem mainnetSubsidyOfMonth_eq (month : Nat) : mainnetSubsidyOfMonth month = mainnetTable.getD (min month 1015) 0 :=
  (List.getD_map _ _ _).symm

theorem mainnetSubsidyOfMonth_antitone {month later : Nat} (le : month ≤ later) :
    mainnetSubsidyOfMonth later ≤ mainnetSubsidyOfMonth month := by
  have inside : ∀ m, min m 1015 < mainnetTable.length := by
    intro m
    rw [mainnetTable_length]
    omega
  rw [mainnetSubsidyOfMonth_eq, mainnetSubsidyOfMonth_eq, List.getD_eq_getElem _ _ (inside later),
    List.getD_eq_getElem _ _ (inside month)]
  rcases Nat.eq_or_lt_of_le (min_le_min_right 1015 le) with same | before
  · simp only [same, le_refl]
  · exact List.pairwise_iff_getElem.mp mainnetTable_pairwise _ _ (inside month) (inside later) before

private theorem sum_getD (values : List Nat) (count : Nat) :
    ∑ i ∈ Finset.range count, values.getD i 0 = (values.take count).sum := by
  induction count with
  | zero => simp
  | succ count ih =>
    rw [Finset.sum_range_succ, ih, List.take_add_one, List.sum_append, List.getD_eq_getElem?_getD]
    cases values[count]? <;> simp

/-- The sum of the first `months` months and a part of the next one. -/
theorem mainnetEmitted_months {months rest : Nat} (inTable : months ≤ 1016) (short : rest ≤ blocksPerMonth) :
    mainnetEmitted (months * blocksPerMonth + rest) =
      blocksPerMonth * (mainnetTable.take months).sum + rest * mainnetSubsidyOfMonth months := by
  have scores : months * blocksPerMonth + rest ≤ 2 ^ 64 := by
    unfold blocksPerMonth at *
    omega
  have monthly : mainnetEmitted (months * blocksPerMonth + rest) =
      ∑ score ∈ Finset.range (months * blocksPerMonth + rest), mainnetSubsidyOfMonth (score / blocksPerMonth) := by
    refine Finset.sum_congr rfl fun score member => ?_
    have fits : score < 2 ^ 64 := Nat.lt_of_lt_of_le (Finset.mem_range.mp member) scores
    rw [calcBlockSubsidy_mainnet, UInt64.toNat_ofNat_of_lt' fits]
  have table : ∑ month ∈ Finset.range months, mainnetSubsidyOfMonth month = (mainnetTable.take months).sum := by
    rw [← sum_getD]
    refine Finset.sum_congr rfl fun month member => ?_
    have before := Finset.mem_range.mp member
    rw [mainnetSubsidyOfMonth_eq, Nat.min_eq_left (by omega)]
  rw [monthly, sum_by_month _ (by decide) _ _ short, table]

theorem mainnetEmitted_mono {n n' : Nat} (le : n ≤ n') : mainnetEmitted n ≤ mainnetEmitted n' :=
  Finset.sum_le_sum_of_subset (Finset.range_mono le)

theorem calcBlockSubsidy_ended {score : UInt64} (late : 26692470000 ≤ score.toNat) :
    mainnetEmission.calcBlockSubsidy score = 0 := by
  apply UInt64.toNat_inj.mp
  have last : mainnetSubsidyOfMonth 1015 = 0 := by decide +kernel
  have months : 1015 ≤ score.toNat / blocksPerMonth :=
    (Nat.le_div_iff_mul_le (by decide)).mpr late
  have bound := mainnetSubsidyOfMonth_antitone months
  rw [last, Nat.le_zero] at bound
  rw [calcBlockSubsidy_mainnet, bound]
  rfl

theorem mainnetEmitted_within : mainnetEmitted 19974884571 ≤ maxSompi.toNat := by
  have sum := mainnetEmitted_months (by decide : 759 ≤ 1016) (by decide : 14702571 ≤ blocksPerMonth)
  have value : blocksPerMonth * (mainnetTable.take 759).sum +
      14702571 * mainnetSubsidyOfMonth 759 ≤ maxSompi.toNat := by decide +kernel
  exact le_of_eq_of_le sum value

theorem mainnetEmitted_passes : maxSompi.toNat < mainnetEmitted 19974884572 := by
  have sum := mainnetEmitted_months (by decide : 759 ≤ 1016) (by decide : 14702572 ≤ blocksPerMonth)
  have value : maxSompi.toNat < blocksPerMonth * (mainnetTable.take 759).sum +
      14702572 * mainnetSubsidyOfMonth 759 := by decide +kernel
  exact lt_of_lt_of_eq value sum.symm

theorem mainnetEmitted_total : mainnetEmitted 26692470000 = maxSompi.toNat + 13335360000 := by
  have sum := mainnetEmitted_months (by decide : 1015 ≤ 1016) (by decide : 0 ≤ blocksPerMonth)
  have value : blocksPerMonth * (mainnetTable.take 1015).sum + 0 * mainnetSubsidyOfMonth 1015 =
      maxSompi.toNat + 13335360000 := by decide +kernel
  exact sum.trans value

theorem mainnetEmitted_ended {n : Nat} (scores : n ≤ 2 ^ 64) (late : 26692470000 ≤ n) :
    mainnetEmitted n = maxSompi.toNat + 13335360000 := by
  rw [← mainnetEmitted_total]
  refine (Finset.sum_subset (Finset.range_mono late) fun score member outside => ?_).symm
  rw [Finset.mem_range] at member outside
  have fits : score < 2 ^ 64 := Nat.lt_of_lt_of_le member scores
  rw [calcBlockSubsidy_ended]
  · rfl
  · rw [UInt64.toNat_ofNat_of_lt' fits]
    exact Nat.not_lt.mp outside

/-- The subsidies never rise and end, but their sum passes the maximal supply: all blocks up to DAA
score 19974884570 together stay within it, and one more does not. In the end 13335360000 sompi more
than the maximal supply are emitted. -/
theorem mainnet_emission (n : Nat) (scores : n ≤ 2 ^ 64) :
    (mainnetEmitted n ≤ maxSompi.toNat ↔ n ≤ 19974884571) ∧
      mainnetEmitted n ≤ maxSompi.toNat + 13335360000 ∧
      (26692470000 ≤ n → mainnetEmitted n = maxSompi.toNat + 13335360000) ∧
      (∀ score later : UInt64, score ≤ later →
        mainnetEmission.calcBlockSubsidy later ≤ mainnetEmission.calcBlockSubsidy score) ∧
      ∀ score : UInt64, 26692470000 ≤ score.toNat → mainnetEmission.calcBlockSubsidy score = 0 := by
  refine ⟨⟨fun within => ?_, fun early => ?_⟩, ?_, mainnetEmitted_ended scores,
    fun score later le => ?_, fun score late => calcBlockSubsidy_ended late⟩
  · by_contra late
    have passed := mainnetEmitted_passes.trans_le (mainnetEmitted_mono (by omega : 19974884572 ≤ n))
    exact absurd within (Nat.not_le.mpr passed)
  · exact (mainnetEmitted_mono early).trans mainnetEmitted_within
  · rcases Nat.le_total 26692470000 n with late | early
    · exact (mainnetEmitted_ended scores late).le
    · exact (mainnetEmitted_mono early).trans mainnetEmitted_total.le
  · rw [UInt64.le_iff_toNat_le, calcBlockSubsidy_mainnet, calcBlockSubsidy_mainnet]
    exact mainnetSubsidyOfMonth_antitone (Nat.div_le_div_right (UInt64.le_iff_toNat_le.mp le))

theorem mainnet_emission_year :
    mainnetEmitted 315576000 ≤ maxSompi.toNat ∧ (315576000 : Nat) ≤ 19974884571 :=
  ⟨(mainnet_emission 315576000 (by decide)).1.mpr (by decide), by decide⟩

/-- All blocks that have a subsidy: together more than the maximal supply. -/
theorem mainnet_emission_passes_cap : ¬ mainnetEmitted 26692470000 ≤ maxSompi.toNat := by
  rw [mainnetEmitted_total]
  omega

end Marigold.Consensus
