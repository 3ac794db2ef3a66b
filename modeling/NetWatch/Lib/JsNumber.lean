import Mathlib.Algebra.Order.Field.Basic
import Mathlib.Algebra.Order.Field.Power
import Mathlib.Algebra.Order.Floor.Ring
import Mathlib.Data.Rat.Floor
import Mathlib.Tactic.FieldSimp
import Mathlib.Tactic.Linarith
import Mathlib.Tactic.NormNum
import Mathlib.Tactic.Positivity
import Mathlib.Tactic.Ring
import NetWatch.Lib.Binary64

namespace NetWatch.Lib.JsNumber

open Binary64

theorem pow2_eq (e : ℤ) : pow2 e = (2 : ℚ) ^ e := by
  rw [pow2]
  split_ifs with he
  · obtain ⟨n, rfl⟩ := Int.eq_ofNat_of_zero_le he
    simp
  · obtain ⟨n, rfl⟩ : ∃ n : ℕ, e = -n := ⟨(-e).toNat, by omega⟩
    simp [zpow_neg]

theorem abs_eq_div (q : ℚ) : |q| = (q.num.natAbs : ℚ) / q.den := by
  rw [Rat.abs_def, Rat.divInt_eq_div]
  simp

section Exponent

variable {q : ℚ} (hq : q ≠ 0)
include hq

theorem num_bounds : (2 : ℚ) ^ (Nat.log2 q.num.natAbs : ℤ) ≤ q.num.natAbs ∧
    (q.num.natAbs : ℚ) < 2 ^ ((Nat.log2 q.num.natAbs : ℤ) + 1) := by
  have hn : q.num.natAbs ≠ 0 := Int.natAbs_ne_zero.mpr (Rat.num_ne_zero.mpr hq)
  have hlt : q.num.natAbs < 2 ^ (Nat.log2 q.num.natAbs + 1) := Nat.lt_log2_self
  constructor
  · rw [zpow_natCast]
    exact_mod_cast Nat.log2_self_le hn
  · have hcast : ((Nat.log2 q.num.natAbs : ℤ) + 1) = ((Nat.log2 q.num.natAbs + 1 : ℕ) : ℤ) := by push_cast; ring
    rw [hcast, zpow_natCast]
    exact_mod_cast hlt

omit hq in
theorem den_bounds (q : ℚ) : (2 : ℚ) ^ (Nat.log2 q.den : ℤ) ≤ q.den ∧ (q.den : ℚ) < 2 ^ ((Nat.log2 q.den : ℤ) + 1) := by
  constructor
  · rw [zpow_natCast]
    exact_mod_cast Nat.log2_self_le q.den_nz
  · have hcast : ((Nat.log2 q.den : ℤ) + 1) = ((Nat.log2 q.den + 1 : ℕ) : ℤ) := by push_cast; ring
    rw [hcast, zpow_natCast]
    exact_mod_cast (Nat.lt_log2_self : q.den < 2 ^ (Nat.log2 q.den + 1))

theorem exponent_bounds : (2 : ℚ) ^ exponent q ≤ |q| ∧ |q| < 2 ^ (exponent q + 1) := by
  obtain ⟨hn, hn'⟩ := num_bounds hq
  obtain ⟨hd, hd'⟩ := den_bounds q
  have hden : (0 : ℚ) < q.den := by exact_mod_cast q.den_pos
  have hpow : ∀ a b : ℤ, (2 : ℚ) ^ (a + b) = 2 ^ a * 2 ^ b := zpow_add₀ two_ne_zero
  set n : ℤ := (Nat.log2 q.num.natAbs : ℤ)
  set d : ℤ := (Nat.log2 q.den : ℤ)
  have hupper : |q| < 2 ^ (n - d + 1) := by
    rw [abs_eq_div, div_lt_iff₀ hden]
    calc (q.num.natAbs : ℚ) < 2 ^ (n + 1) := hn'
      _ = 2 ^ (n - d + 1) * 2 ^ d := by rw [← hpow]; congr 1; ring
      _ ≤ 2 ^ (n - d + 1) * q.den := by gcongr
  have hlower : (2 : ℚ) ^ (n - d - 1) ≤ |q| := by
    rw [abs_eq_div, le_div_iff₀ hden]
    calc (2 : ℚ) ^ (n - d - 1) * q.den ≤ 2 ^ (n - d - 1) * 2 ^ (d + 1) := by gcongr
      _ = 2 ^ n := by rw [← hpow]; congr 1; ring
      _ ≤ q.num.natAbs := hn
  have he : exponent q = if (2 : ℚ) ^ (n - d) ≤ |q| then n - d else n - d - 1 := by
    rw [exponent, pow2_eq]
  rw [he]
  split_ifs with hle
  · exact ⟨hle, hupper⟩
  · exact ⟨hlower, by rw [sub_add_cancel]; exact not_le.mp hle⟩

end Exponent

theorem roundHalfEven_error (x : ℚ) : |(roundHalfEven x : ℚ) - x| ≤ 1 / 2 := by
  have hfloor : ((x.floor : ℤ) : ℚ) ≤ x := Rat.floor_le x
  have hlt : x < x.floor + 1 := by exact_mod_cast Rat.lt_floor_add_one x
  rw [roundHalfEven, abs_le]
  split_ifs <;> push_cast <;> constructor <;> linarith

theorem roundHalfEven_int (n : ℤ) : roundHalfEven n = n := by
  rw [roundHalfEven, Rat.floor_intCast, sub_self, if_pos (by norm_num)]

/-- Rounding is off by half a unit of the last of 53 places at most. -/
theorem round_error (q : ℚ) : |Binary64.round q - q| ≤ |q| / 2 ^ 53 := by
  by_cases hq : q = 0
  · simp [hq]
  · obtain ⟨hlower, -⟩ := exponent_bounds hq
    have hunit : (0 : ℚ) < 2 ^ (exponent q - 52) := by positivity
    rw [Binary64.round, if_neg hq, pow2_eq]
    set u : ℚ := 2 ^ (exponent q - 52) with hu
    have hsplit : (roundHalfEven (q / u) : ℚ) * u - q = (roundHalfEven (q / u) - q / u) * u := by
      field_simp
    have hscale : u / 2 = 2 ^ exponent q / 2 ^ 53 := by
      rw [hu, zpow_sub₀ two_ne_zero]
      norm_num
      ring
    calc |(roundHalfEven (q / u) : ℚ) * u - q| = |(roundHalfEven (q / u) : ℚ) - q / u| * u := by
          rw [hsplit, abs_mul, abs_of_pos hunit]
      _ ≤ 1 / 2 * u := by gcongr; exact roundHalfEven_error _
      _ = 2 ^ exponent q / 2 ^ 53 := by rw [← hscale]; ring
      _ ≤ |q| / 2 ^ 53 := by gcongr

theorem unit_divides {m e : ℤ} {k : ℕ} (hm : |m| ≤ 2 ^ 53) (he : (2 : ℚ) ^ e ≤ |(m * 2 ^ k : ℚ)|) :
    ∃ n : ℤ, (m * 2 ^ k : ℚ) / 2 ^ (e - 52) = n := by
  have hm' : |(m : ℚ)| ≤ 2 ^ 53 := by exact_mod_cast hm
  rw [abs_mul, abs_pow, abs_two] at he
  by_cases hle : e - 52 ≤ k
  · obtain ⟨j, hj⟩ := Int.eq_ofNat_of_zero_le (sub_nonneg.mpr hle)
    have hk : (2 : ℚ) ^ k = 2 ^ j * 2 ^ (e - 52) := by
      rw [← zpow_natCast, ← zpow_natCast, ← zpow_add₀ two_ne_zero, ← hj, sub_add_cancel]
    refine ⟨m * 2 ^ j, ?_⟩
    rw [div_eq_iff (by positivity), hk]
    push_cast
    ring
  · -- Only a power of two reaches the exponent `53 + k`.
    have hexp : e ≤ 53 + k := by
      have habs : |(m : ℚ)| * 2 ^ k ≤ 2 ^ ((53 : ℤ) + k) := by
        rw [zpow_add₀ two_ne_zero, zpow_natCast]
        exact mul_le_mul_of_nonneg_right (by exact_mod_cast hm') (by positivity)
      exact (zpow_le_zpow_iff_right₀ one_lt_two).mp (he.trans habs)
    obtain rfl : e = 53 + k := by omega
    have hpow : (2 : ℚ) ^ 53 ≤ |(m : ℚ)| := by
      rw [zpow_add₀ two_ne_zero, zpow_natCast] at he
      exact_mod_cast le_of_mul_le_mul_right he (by positivity)
    have hcase : m = 2 ^ 53 ∨ m = -2 ^ 53 := by
      apply eq_or_eq_neg_of_abs_eq
      exact le_antisymm hm (by exact_mod_cast hpow)
    have hunit : (2 : ℚ) ^ ((53 : ℤ) + k - 52) = 2 * 2 ^ k := by
      rw [show ((53 : ℤ) + k - 52) = 1 + k by ring, zpow_add₀ two_ne_zero, zpow_one, zpow_natCast]
    rw [hunit]
    rcases hcase with rfl | rfl
    · exact ⟨2 ^ 52, by push_cast; field_simp; norm_num⟩
    · exact ⟨-2 ^ 52, by push_cast; field_simp; norm_num⟩

/-- A number with at most 53 places is not changed. -/
theorem round_exact {m : ℤ} (hm : |m| ≤ 2 ^ 53) (k : ℕ) : Binary64.round (m * 2 ^ k) = m * 2 ^ k := by
  by_cases hzero : m = 0
  · simp [hzero]
  · have hq : (m * 2 ^ k : ℚ) ≠ 0 := by positivity
    obtain ⟨n, hn⟩ := unit_divides hm (exponent_bounds hq).1
    rw [Binary64.round, if_neg hq, pow2_eq, hn, roundHalfEven_int, ← hn, div_mul_cancel₀ _ (by positivity)]

theorem le_roundHalfEven {x : ℚ} {n : ℤ} (h : n ≤ x) : n ≤ roundHalfEven x := by
  have hfloor : n ≤ x.floor := Rat.le_floor_iff.mpr h
  rw [roundHalfEven]
  split_ifs <;> omega

section Monotone

variable {x y : ℚ}

theorem roundHalfEven_mono (h : x ≤ y) : roundHalfEven x ≤ roundHalfEven y := by
  have hfloor : x.floor ≤ y.floor := Rat.floor_monotone h
  obtain hlt | heq := lt_or_eq_of_le hfloor
  · rw [roundHalfEven, roundHalfEven]
    split_ifs <;> omega
  · rw [roundHalfEven, roundHalfEven, ← heq]
    split_ifs <;> first | omega | (exfalso; linarith)

theorem round_bounds (hx : 0 < x) : 2 ^ exponent x ≤ Binary64.round x ∧ Binary64.round x ≤ 2 ^ (exponent x + 1) := by
  obtain ⟨hlower, hupper⟩ := exponent_bounds hx.ne'
  rw [abs_of_pos hx] at hlower hupper
  have hunit : (0 : ℚ) < 2 ^ (exponent x - 52) := by positivity
  have hscale : ∀ k : ℕ, ((2 ^ (52 + k) : ℤ) : ℚ) * 2 ^ (exponent x - 52) = 2 ^ (exponent x + k) := by
    intro k
    push_cast
    rw [← zpow_natCast, ← zpow_add₀ two_ne_zero]
    congr 1
    push_cast
    ring
  have hbelow := hscale 0
  have habove := hscale 1
  rw [Nat.cast_zero, add_zero, add_zero] at hbelow
  rw [Nat.cast_one] at habove
  rw [Binary64.round, if_neg hx.ne', pow2_eq, ← hbelow, ← habove]
  constructor
  · apply mul_le_mul_of_nonneg_right _ hunit.le
    rw [Int.cast_le]
    apply le_roundHalfEven
    rw [le_div_iff₀ hunit, hbelow]
    exact hlower
  · apply mul_le_mul_of_nonneg_right _ hunit.le
    rw [Int.cast_le, ← roundHalfEven_int (2 ^ (52 + 1))]
    apply roundHalfEven_mono
    rw [div_le_iff₀ hunit, habove]
    exact hupper.le

theorem round_nonneg (hx : 0 ≤ x) : 0 ≤ Binary64.round x := by
  obtain rfl | hpos := hx.eq_or_lt
  · exact round_zero.ge
  · exact (by positivity : (0 : ℚ) ≤ 2 ^ exponent x).trans (round_bounds hpos).1

theorem round_mono (hx : 0 ≤ x) (h : x ≤ y) : Binary64.round x ≤ Binary64.round y := by
  obtain rfl | hpos := hx.eq_or_lt
  · rw [round_zero]
    exact round_nonneg h
  · have hpos' : 0 < y := hpos.trans_le h
    obtain ⟨hlower, -⟩ := exponent_bounds hpos.ne'
    obtain ⟨-, hupper⟩ := exponent_bounds hpos'.ne'
    rw [abs_of_pos hpos] at hlower
    rw [abs_of_pos hpos'] at hupper
    have hexp : exponent x < exponent y + 1 := (zpow_lt_zpow_iff_right₀ one_lt_two).mp ((hlower.trans h).trans_lt hupper)
    obtain hlt | heq := lt_or_eq_of_le (Int.lt_add_one_iff.mp hexp)
    · calc Binary64.round x ≤ 2 ^ (exponent x + 1) := (round_bounds hpos).2
        _ ≤ 2 ^ exponent y := zpow_le_zpow_right₀ one_le_two (by omega)
        _ ≤ Binary64.round y := (round_bounds hpos').1
    · have hunit : (0 : ℚ) < 2 ^ (exponent y - 52) := by positivity
      rw [Binary64.round, Binary64.round, if_neg hpos.ne', if_neg hpos'.ne', pow2_eq, pow2_eq, heq]
      apply mul_le_mul_of_nonneg_right _ hunit.le
      rw [Int.cast_le]
      apply roundHalfEven_mono
      gcongr

theorem le_round {m : ℤ} (hm : |m| ≤ 2 ^ 53) {k : ℕ} (hx : 0 ≤ x) (h : (m * 2 ^ k : ℚ) ≤ x) :
    (m * 2 ^ k : ℚ) ≤ Binary64.round x := by
  by_cases hneg : (m * 2 ^ k : ℚ) < 0
  · exact hneg.le.trans (round_nonneg hx)
  · calc (m * 2 ^ k : ℚ) = Binary64.round (m * 2 ^ k) := (round_exact hm k).symm
      _ ≤ Binary64.round x := round_mono (not_lt.mp hneg) h

end Monotone

/-- An integer as a number has it: the nearest number to an integer is an integer. -/
def fl (n : ℤ) : ℤ := (Binary64.round n).floor

/-- `Math.floor(a / b)`. -/
def floorDiv (a b : ℤ) : ℤ := (Binary64.div a b).floor

/-- `Math.ceil(a / b)`. -/
def ceilDiv (a b : ℤ) : ℤ := (Binary64.div a b).ceil

section MathRound

variable {K : Type} [Field K] [LinearOrder K] [FloorRing K] {x y : K}

/-- `Math.round`, which rounds a half up. -/
def mathRound (x : K) : ℤ := ⌊x + (1 / 2 : ℚ)⌋

theorem mathRound_eq (x : K) : mathRound x = ⌊x + 1 / 2⌋ := by
  rw [mathRound, Rat.cast_div, Rat.cast_one, Rat.cast_ofNat]

theorem mathRound_le (x : K) : (mathRound x : K) ≤ x + 1 / 2 := by
  rw [mathRound_eq]
  exact Int.floor_le _

theorem lt_mathRound_add_one (x : K) : x + 1 / 2 < mathRound x + 1 := by
  rw [mathRound_eq]
  exact Int.lt_floor_add_one _

theorem le_mathRound {n : ℤ} : n ≤ mathRound x ↔ (n : K) ≤ x + 1 / 2 := by
  rw [mathRound_eq]
  exact Int.le_floor

theorem mathRound_lt {n : ℤ} : mathRound x < n ↔ x + 1 / 2 < n := by
  rw [mathRound_eq]
  exact Int.floor_lt

variable [IsStrictOrderedRing K]

theorem mathRound_mono (h : x ≤ y) : mathRound x ≤ mathRound y := Int.floor_mono (by gcongr)

theorem mathRound_int (n : ℤ) : mathRound (n : K) = n := by
  apply le_antisymm
  · rw [← Int.lt_add_one_iff, mathRound_lt, Int.cast_add, Int.cast_one]
    linarith
  · rw [le_mathRound]
    linarith

end MathRound

def roundDiv (a b : ℤ) : ℤ := mathRound (Binary64.div a b)

theorem fl_exact {m : ℤ} (hm : |m| ≤ 2 ^ 53) (k : ℕ) : fl (m * 2 ^ k) = m * 2 ^ k := by
  have hround := round_exact hm k
  rw [fl]
  push_cast
  rw [hround]
  exact_mod_cast Rat.floor_intCast (m * 2 ^ k)

theorem round_int {n : ℤ} (hn : |n| ≤ 2 ^ 53) : Binary64.round n = n := by
  simpa using round_exact hn 0

theorem fl_small {n : ℤ} (hn : |n| ≤ 2 ^ 53) : fl n = n := by
  simpa using fl_exact hn 0

theorem fl_nonneg {n : ℤ} (hn : 0 ≤ n) : 0 ≤ fl n := by
  rw [fl, Rat.le_floor_iff]
  exact round_nonneg (by exact_mod_cast hn)

/-- Beyond the integers of 53 places rounding does not lead back to them. -/
theorem fl_safe {n : ℤ} (hn : 0 ≤ fl n) (h : fl n < 2 ^ 53) : fl n = n := by
  have hround : (fl n : ℚ) ≤ Binary64.round n := Rat.floor_le _
  have hnonneg : 0 ≤ n := by
    by_contra hneg
    have hneg' : (n : ℚ) < 0 := by exact_mod_cast not_le.mp hneg
    have herror := (abs_le.mp (round_error (n : ℚ))).2
    have hzero : (0 : ℚ) ≤ fl n := by exact_mod_cast hn
    rw [abs_of_neg hneg'] at herror
    have hsmall : -(n : ℚ) / 2 ^ 53 < -n := div_lt_self (by linarith) (by norm_num)
    linarith
  by_cases hle : n ≤ 2 ^ 53
  · exact fl_small (abs_le.mpr ⟨by omega, hle⟩)
  · exfalso
    have hbig : (((2 : ℤ) ^ 53 : ℤ) * 2 ^ 0 : ℚ) ≤ n := by
      rw [pow_zero, mul_one]
      exact_mod_cast (not_le.mp hle).le
    have hpos : (0 : ℚ) < n := lt_of_lt_of_le (by norm_num) hbig
    have hfl : (2 : ℤ) ^ 53 ≤ fl n := by
      rw [fl, Rat.le_floor_iff]
      have hge := le_round (by norm_num) hpos.le hbig
      rwa [pow_zero, mul_one] at hge
    omega

section Quotients

variable {a b m : ℤ} (ha : |a| < 2 ^ 53) (hb : 0 < b)
include ha hb

theorem div_error : |Binary64.div a b - a / b| < 1 / b := by
  have hb' : (0 : ℚ) < b := by exact_mod_cast hb
  have ha' : |(a : ℚ)| < 2 ^ 53 := by exact_mod_cast ha
  calc |Binary64.div a b - a / b| ≤ |(a : ℚ) / b| / 2 ^ 53 := round_error _
    _ = |(a : ℚ)| / 2 ^ 53 * (1 / b) := by rw [abs_div, abs_of_pos hb']; ring
    _ < 1 * (1 / b) := by
        apply mul_lt_mul_of_pos_right _ (by positivity)
        rw [div_lt_one (by positivity)]
        exact ha'
    _ = 1 / b := one_mul _

theorem lt_div_of_lt (h : m * b < a) : (m : ℚ) < Binary64.div a b := by
  have hb' : (0 : ℚ) < b := by exact_mod_cast hb
  have herror := (abs_lt.mp (div_error ha hb)).1
  have hgap : (m : ℚ) + 1 / b ≤ a / b := by
    rw [← le_sub_iff_add_le, ← mul_le_mul_iff_of_pos_right hb', sub_mul, div_mul_cancel₀ _ hb'.ne',
      div_mul_cancel₀ _ hb'.ne']
    exact_mod_cast (by omega : m * b ≤ a - 1)
  linarith

theorem div_lt_of_lt (h : a < m * b) : Binary64.div a b < m := by
  have hb' : (0 : ℚ) < b := by exact_mod_cast hb
  have herror := (abs_lt.mp (div_error ha hb)).2
  have hgap : (a : ℚ) / b + 1 / b ≤ m := by
    rw [← add_div, div_le_iff₀ hb']
    exact_mod_cast (by omega : a + 1 ≤ m * b)
  linarith

omit ha in
theorem div_of_mul (hm : |m| ≤ 2 ^ 53) : Binary64.div ((m * b : ℤ) : ℚ) b = m := by
  have hb' : (b : ℚ) ≠ 0 := by exact_mod_cast hb.ne'
  rw [Binary64.div]
  push_cast
  rw [mul_div_cancel_right₀ _ hb', round_int hm]

theorem abs_le_of_mul (h : a = m * b) : |m| ≤ 2 ^ 53 := by
  rw [h, abs_mul, abs_of_pos hb] at ha
  nlinarith [abs_nonneg m]

/-- Against an integer, the rounded quotient compares like the exact one. -/
theorem le_div_iff_mul_le : (m : ℚ) ≤ Binary64.div a b ↔ m * b ≤ a := by
  rcases lt_trichotomy (m * b) a with hlt | heq | hgt
  · exact iff_of_true (lt_div_of_lt ha hb hlt).le hlt.le
  · subst heq
    rw [div_of_mul hb (abs_le_of_mul ha hb rfl)]
    exact iff_of_true le_rfl le_rfl
  · exact iff_of_false (not_le.mpr (div_lt_of_lt ha hb hgt)) (not_le.mpr hgt)

theorem div_le_iff_le_mul : Binary64.div a b ≤ m ↔ a ≤ m * b := by
  rcases lt_trichotomy (m * b) a with hlt | heq | hgt
  · exact iff_of_false (not_le.mpr (lt_div_of_lt ha hb hlt)) (not_le.mpr hlt)
  · subst heq
    rw [div_of_mul hb (abs_le_of_mul ha hb rfl)]
    exact iff_of_true le_rfl le_rfl
  · exact iff_of_true (div_lt_of_lt ha hb hgt).le hgt.le

theorem floorDiv_eq : floorDiv a b = a / b := by
  apply eq_of_forall_le_iff
  intro m
  rw [floorDiv, Rat.le_floor_iff, le_div_iff_mul_le ha hb, Int.le_ediv_iff_mul_le hb]

theorem ceilDiv_le_iff : ceilDiv a b ≤ m ↔ a ≤ m * b := by
  rw [ceilDiv, Rat.ceil_le_iff, div_le_iff_le_mul ha hb]

end Quotients

theorem roundDiv_mul {b m : ℤ} (hb : 0 < b) (hm : |m| ≤ 2 ^ 53) : roundDiv (m * b) b = m := by
  rw [roundDiv, div_of_mul hb hm, mathRound_int]

end NetWatch.Lib.JsNumber
