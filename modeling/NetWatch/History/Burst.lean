import NetWatch.History.Throughput
import NetWatch.Lib.OrderStatistic

namespace NetWatch.History.Burst

open Lib Lib.JsNumber Lib.OrderStatistic Throughput

def unrounded (samples : List ℚ) (ticks : ℤ) : PaddedStats :=
  let n := max ticks samples.length
  if n = 0 then ⟨0, 0⟩
  else
    let desc := samples.mergeSort fun a b => b ≤ a
    let i := n - (Binary64.mul (Binary64.round (95 / 100)) n).ceil
    ⟨max 0 ((if i < 0 then none else desc[i.toNat]?).getD 0), max 0 (desc[0]?.getD 0)⟩

/-- The samples extended with zeros, one for each idle tick. -/
def padded (samples : List ℚ) (n : ℕ) : List ℚ := samples ++ List.replicate (n - samples.length) 0

def Below (s s' : PaddedStats) : Prop := s.p95 ≤ s'.p95 ∧ s.max ≤ s'.max

theorem round3_zero : round3 0 = 0 := by decide +kernel

theorem paddedStats_eq (samples : List ℚ) (ticks : ℤ) :
    paddedStats samples ticks = ⟨round3 (unrounded samples ticks).p95, round3 (unrounded samples ticks).max⟩ := by
  rw [paddedStats, unrounded]
  split_ifs
  · rw [round3_zero]
  all_goals rfl

theorem round3_mono {x y : ℚ} (hx : 0 ≤ x) (h : x ≤ y) : round3 x ≤ round3 y := by
  have hmul : Binary64.mul x 1000 ≤ Binary64.mul y 1000 := round_mono (by positivity) (by linarith)
  have hnonneg : 0 ≤ mathRound (Binary64.mul x 1000) := by
    rw [le_mathRound]
    have hround : 0 ≤ Binary64.mul x 1000 := round_nonneg (by positivity)
    push_cast
    linarith
  have hcast : (0 : ℚ) ≤ mathRound (Binary64.mul x 1000) := by exact_mod_cast hnonneg
  have hle : (mathRound (Binary64.mul x 1000) : ℚ) ≤ mathRound (Binary64.mul y 1000) := by
    exact_mod_cast mathRound_mono hmul
  apply round_mono
  · positivity
  · gcongr

section Rank

variable {n : ℤ}

theorem share_le : Binary64.round (95 / 100) ≤ 95 / 100 := by decide +kernel

theorem le_share : (95 / 100 : ℚ) * (1 - 1 / 2 ^ 53) ≤ Binary64.round (95 / 100) := by decide +kernel

def nearestRank (n : ℤ) : ℤ := (Binary64.mul (Binary64.round (95 / 100)) n).ceil

theorem product_error (hn : 0 ≤ n) : |Binary64.mul (Binary64.round (95 / 100)) n - 95 / 100 * n| ≤ n / 2 ^ 52 := by
  have hn' : (0 : ℚ) ≤ n := by exact_mod_cast hn
  have hupper : Binary64.round (95 / 100) * n ≤ 95 / 100 * n := mul_le_mul_of_nonneg_right share_le hn'
  have hlower : (95 / 100 : ℚ) * (1 - 1 / 2 ^ 53) * n ≤ Binary64.round (95 / 100) * n :=
    mul_le_mul_of_nonneg_right le_share hn'
  have hround := abs_le.mp (round_error (Binary64.round (95 / 100) * n))
  rw [abs_of_nonneg (by linarith)] at hround
  rw [Binary64.mul, abs_le]
  constructor <;> linarith

/-- The product is off by less than a twentieth: its ceiling is that of the exact one. -/
theorem nearestRank_eq (hn : 0 ≤ n) (hsmall : n < 2 ^ 47) : nearestRank n = n - n / 20 := by
  have hn' : (0 : ℚ) ≤ n := by exact_mod_cast hn
  have hsmall' : (n : ℚ) < 2 ^ 47 := by exact_mod_cast hsmall
  have hfloor : (20 : ℚ) * ((n / 20 : ℤ) : ℚ) ≤ n := by exact_mod_cast (by omega : 20 * (n / 20) ≤ n)
  have hrest : (n : ℚ) ≤ 20 * ((n / 20 : ℤ) : ℚ) + 19 := by exact_mod_cast (by omega : n ≤ 20 * (n / 20) + 19)
  apply le_antisymm
  · -- the rounded product does not pass the integer above the exact one
    have hprod : Binary64.round (95 / 100) * n ≤ 95 / 100 * n := mul_le_mul_of_nonneg_right share_le hn'
    have hnonneg : 0 ≤ Binary64.round (95 / 100) * n := mul_nonneg (round_nonneg (by norm_num)) hn'
    have hexact : Binary64.round ((n - n / 20 : ℤ) : ℚ) = (n - n / 20 : ℤ) :=
      round_int (abs_le.mpr ⟨by omega, by omega⟩)
    rw [nearestRank, Rat.ceil_le_iff, Binary64.mul, ← hexact]
    apply round_mono hnonneg
    push_cast
    linarith
  · have herror := (abs_le.mp (product_error hn)).1
    rw [← Int.sub_one_lt_iff, ← not_le, nearestRank, Rat.ceil_le_iff, not_le]
    push_cast
    linarith

theorem nearestRank_large (hn : 2 ^ 47 ≤ n) : 2 ^ 32 ≤ n - nearestRank n := by
  have hn' : (2 ^ 47 : ℚ) ≤ n := by exact_mod_cast hn
  have herror := (abs_le.mp (product_error (by omega : 0 ≤ n))).2
  have hle : nearestRank n ≤ n - 2 ^ 32 := by
    rw [nearestRank, Rat.ceil_le_iff]
    push_cast
    linarith
  omega

end Rank

section Descending

variable {samples : List ℚ} {ticks : ℤ}

def descending (samples : List ℚ) : List ℚ := samples.mergeSort fun a b => b ≤ a

theorem descending_perm (samples : List ℚ) : (descending samples).Perm samples := List.mergeSort_perm _ _

theorem descending_sorted (samples : List ℚ) : (descending samples).Pairwise (· ≥ ·) :=
  List.pairwise_mergeSort' (· ≥ ·) samples

theorem descending_congr {samples' : List ℚ} (h : samples'.Perm samples) : descending samples' = descending samples :=
  List.Perm.eq_of_pairwise' (descending_sorted samples') (descending_sorted samples)
    ((descending_perm samples').trans (h.trans (descending_perm samples).symm))

/-- The `i`-th of the samples from the largest down, and 0 past their end. -/
def reading (samples : List ℚ) (i : ℕ) : ℚ := (descending samples)[i]?.getD 0

theorem reading_nil (i : ℕ) : reading [] i = 0 := by
  rw [reading, descending, List.mergeSort_nil]
  rfl

/-- Of very many ticks the rank may be off by one, but it is past the end of every array. -/
theorem reading_nearestRank (harray : samples.length < 2 ^ 32) {n : ℤ} (hn : 0 ≤ n) :
    (if n - nearestRank n < 0 then none else (descending samples)[(n - nearestRank n).toNat]?).getD 0 =
      reading samples (n / 20).toNat := by
  by_cases hsmall : n < 2 ^ 47
  · rw [nearestRank_eq hn hsmall, sub_sub_cancel, if_neg (by omega)]
    rfl
  · have hlarge := nearestRank_large (not_lt.mp hsmall)
    have hlength : (descending samples).length < 2 ^ 32 := by rwa [(descending_perm samples).length_eq]
    rw [if_neg (by omega), reading, List.getElem?_eq_none (by omega), List.getElem?_eq_none (by omega)]

theorem getElem?_extended {n j : ℕ} (hn : samples.length ≤ n) (hj : j < n) :
    (descending samples ++ List.replicate (n - samples.length) 0)[j]? = some (reading samples j) := by
  have hlength := (descending_perm samples).length_eq
  rw [reading]
  by_cases hin : j < samples.length
  · rw [List.getElem?_append_left (by omega), List.getElem?_eq_getElem (by omega)]
    rfl
  · rw [List.getElem?_append_right (by omega), List.getElem?_replicate_of_lt (by omega), List.getElem?_eq_none (by omega)]
    rfl

variable (hnonneg : ∀ x ∈ samples, 0 ≤ x)
include hnonneg

theorem reading_nonneg (i : ℕ) : 0 ≤ reading samples i := by
  rw [reading]
  cases hx : (descending samples)[i]? with
  | none => exact le_rfl
  | some x => exact hnonneg x ((descending_perm samples).subset (List.mem_of_getElem? hx))

theorem reading_antitone {i j : ℕ} (h : i ≤ j) : reading samples j ≤ reading samples i := by
  obtain rfl | hlt := h.eq_or_lt
  · exact le_rfl
  · by_cases hj : j < (descending samples).length
    · rw [reading, reading, List.getElem?_eq_getElem hj, List.getElem?_eq_getElem (hlt.trans hj)]
      exact List.pairwise_iff_getElem.mp (descending_sorted samples) i j (hlt.trans hj) hj hlt
    · rw [reading, List.getElem?_eq_none (not_lt.mp hj)]
      exact reading_nonneg hnonneg i

theorem unrounded_eq (harray : samples.length < 2 ^ 32) (hticks : 0 ≤ ticks) :
    unrounded samples ticks = ⟨reading samples (max ticks samples.length / 20).toNat, reading samples 0⟩ := by
  obtain ⟨n, hmax⟩ : ∃ n, n = max ticks (samples.length : ℤ) := ⟨_, rfl⟩
  have hn : 0 ≤ n := hmax ▸ hticks.trans (le_max_left _ _)
  rw [unrounded, ← hmax]
  by_cases hzero : n = 0
  · obtain rfl : samples = [] := List.eq_nil_of_length_eq_zero (by omega)
    rw [if_pos hzero, reading_nil, reading_nil]
  · rw [if_neg hzero]
    change PaddedStats.mk (max 0 ((if n - nearestRank n < 0 then none
      else (descending samples)[(n - nearestRank n).toNat]?).getD 0)) (max 0 (reading samples 0)) = _
    rw [reading_nearestRank harray hn, max_eq_right (reading_nonneg hnonneg _), max_eq_right (reading_nonneg hnonneg _)]

theorem extended_sorted (n : ℕ) : (descending samples ++ List.replicate (n - samples.length) 0).Pairwise (· ≥ ·) := by
  refine List.pairwise_append.mpr ⟨descending_sorted samples, List.pairwise_replicate.mpr (.inr le_rfl), fun a ha b hb => ?_⟩
  rw [List.eq_of_mem_replicate hb]
  exact hnonneg a ((descending_perm samples).subset ha)

omit hnonneg in
theorem extended_perm (n : ℕ) : (descending samples ++ List.replicate (n - samples.length) 0).Perm (padded samples n) :=
  (descending_perm samples).append_right _

theorem kthSmallest_padded {n k : ℕ} (hn : samples.length ≤ n) (hk : 0 < k) (hle : k ≤ n) :
    kthSmallest (padded samples n) k = some (reading samples (n - k)) := by
  have hlength : (padded samples n).length = n := by
    rw [padded, List.length_append, List.length_replicate]
    omega
  rw [kthSmallest_of_descending (extended_perm n) (extended_sorted hnonneg n) hk (hlength.symm ▸ hle), hlength,
    getElem?_extended hn (by omega)]

theorem isGreatest_padded {n : ℕ} (hn : samples.length ≤ n) (hpos : 0 < n) :
    IsGreatest {x | x ∈ padded samples n} (reading samples 0) := by
  apply isGreatest_of_descending (extended_perm n) (extended_sorted hnonneg n)
  rw [List.head?_eq_getElem?, getElem?_extended hn hpos]

variable (harray : samples.length < 2 ^ 32) (hticks : 0 ≤ ticks)
include harray hticks

theorem unrounded_ordered :
    0 ≤ (unrounded samples ticks).p95 ∧ (unrounded samples ticks).p95 ≤ (unrounded samples ticks).max := by
  rw [unrounded_eq hnonneg harray hticks]
  exact ⟨reading_nonneg hnonneg _, reading_antitone hnonneg (Nat.zero_le _)⟩

theorem unrounded_perm {samples' : List ℚ} (h : samples'.Perm samples) :
    unrounded samples' ticks = unrounded samples ticks := by
  have hnonneg' : ∀ x ∈ samples', 0 ≤ x := fun x hx => hnonneg x (h.subset hx)
  have hsame : reading samples' = reading samples := by
    funext i
    rw [reading, reading, descending_congr h]
  rw [unrounded_eq hnonneg' (h.length_eq ▸ harray) hticks, unrounded_eq hnonneg harray hticks, h.length_eq, hsame]

theorem unrounded_below {ticks' : ℤ} (h : ticks ≤ ticks') : Below (unrounded samples ticks') (unrounded samples ticks) := by
  rw [unrounded_eq hnonneg harray (hticks.trans h), unrounded_eq hnonneg harray hticks]
  exact ⟨reading_antitone hnonneg (by omega), le_rfl⟩

end Descending

section Padding

variable {samples : List ℚ} {ticks : ℤ} {n : ℕ}

theorem ceil_share (hn : 0 < n) : ⌈(95 / 100 : ℚ) * n⌉₊ = n - n / 20 := by
  have hfloor : (20 : ℚ) * ((n / 20 : ℕ) : ℚ) ≤ n := by exact_mod_cast (by omega : 20 * (n / 20) ≤ n)
  have hrest : (n : ℚ) ≤ 20 * ((n / 20 : ℕ) : ℚ) + 19 := by exact_mod_cast (by omega : n ≤ 20 * (n / 20) + 19)
  rw [Nat.ceil_eq_iff (by omega), Nat.sub_sub, Nat.cast_sub (by omega), Nat.cast_sub (by omega)]
  push_cast
  constructor <;> linarith

/-- The percentile and the maximum of the samples with zeros for the idle ticks. No array has `2 ^ 32` elements. -/
theorem nearest_rank_padded (hnonneg : ∀ x ∈ samples, 0 ≤ x) (harray : samples.length < 2 ^ 32) (hticks : 0 ≤ ticks)
    (hn : (n : ℤ) = max ticks samples.length) :
    paddedStats samples ticks = ⟨round3 (unrounded samples ticks).p95, round3 (unrounded samples ticks).max⟩ ∧
      (n = 0 → unrounded samples ticks = ⟨0, 0⟩) ∧
      (0 < n → kthSmallest (padded samples n) ⌈(95 / 100 : ℚ) * n⌉₊ = some (unrounded samples ticks).p95 ∧
        IsGreatest {x | x ∈ padded samples n} (unrounded samples ticks).max) ∧
      (∀ samples', samples'.Perm samples → unrounded samples' ticks = unrounded samples ticks) ∧
      (unrounded samples ticks).p95 ≤ (unrounded samples ticks).max ∧
      (paddedStats samples ticks).p95 ≤ (paddedStats samples ticks).max ∧
      ∀ ticks', ticks ≤ ticks' → Below (unrounded samples ticks') (unrounded samples ticks) ∧
        Below (paddedStats samples ticks') (paddedStats samples ticks) := by
  obtain ⟨hp95, hle⟩ := unrounded_ordered hnonneg harray hticks
  refine ⟨paddedStats_eq samples ticks, ?_, ?_, fun samples' => unrounded_perm hnonneg harray hticks, hle, ?_, ?_⟩
  · intro hzero
    rw [unrounded, if_pos (by omega)]
  · intro hpos
    have hindex : (max ticks samples.length / 20).toNat = n - (n - n / 20) := by omega
    rw [unrounded_eq hnonneg harray hticks, hindex, ceil_share hpos]
    exact ⟨kthSmallest_padded hnonneg (by omega) (by omega) (Nat.sub_le _ _), isGreatest_padded hnonneg (by omega) hpos⟩
  · rw [paddedStats_eq]
    exact round3_mono hp95 hle
  · intro ticks' hmore
    have hbelow := unrounded_below hnonneg harray hticks hmore
    obtain ⟨hp95', hle'⟩ := unrounded_ordered hnonneg harray (hticks.trans hmore)
    refine ⟨hbelow, ?_⟩
    rw [paddedStats_eq, paddedStats_eq]
    exact ⟨round3_mono hp95' hbelow.1, round3_mono (hp95'.trans hle') hbelow.2⟩

/-- Three active ticks of 20. -/
theorem nearest_rank_padded_sample :
    kthSmallest (padded [10, 100, 50] 20) ⌈(95 / 100 : ℚ) * (20 : ℕ)⌉₊ = some (unrounded [10, 100, 50] 20).p95 ∧
      IsGreatest {x | x ∈ padded [10, 100, 50] 20} (unrounded [10, 100, 50] 20).max := by
  have hnonneg : ∀ x ∈ ([10, 100, 50] : List ℚ), 0 ≤ x := by decide +kernel
  exact (nearest_rank_padded hnonneg (by decide) (by norm_num) (by decide)).2.2.1 (by norm_num)

end Padding

end NetWatch.History.Burst
